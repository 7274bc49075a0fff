import HeaderDecl.Grammar.Declarator
import HeaderDecl.Grammar.Specifiers

/-!
Declarations, which may stand within a record or outside of any.
-/

namespace HeaderDecl.Grammar

open HeaderDecl.Grammar.Parser

/-- Skips a declaration that declares nothing. -/
def skipped : Parser Declared := do
  let _ ← skipWhole
  return {}

/-- The declarators of a declaration, up to its semicolon or to the body of a function. -/
def declarators (P : Nested) : Parser (List (Declarator × Tail)) :=
  collect do
    let d ← declarator P
    let tail ← tail d
    -- No semicolon is needed after a body, and one that stands there belongs to it.
    if tail.hasBody then
      let _ ← take .semicolon
      return ([(d, tail)], false)
    if ← take .comma then return ([(d, tail)], true)
    let _ ← consume .semicolon
    return ([(d, tail)], false)

/-- A declaration with specifiers and declarators, behind template parameters if there are any. All
that it declares is located at its origin. -/
def declaration (P : Nested) (member : Option MemberContext)
    (template : Option (List (TemplateParam TypeExpr))) (origin : Origin) : Parser Declared := do
  let specs ← specifiers P (member.bind MemberContext.record)
  if specs.isFriend then skipped
  else if ← take .semicolon then return declareAlone specs member template origin
  else
    let ds ← declarators P
    let d := declare specs member template origin (← scope) ds
    reportAll d.reports
    return d

/-- Skips a declaration, and reports it with all that stands before it from `start` on. -/
def unmodeled (start : Cursor) (what : String) : Parser Declared := do
  let first ← skipWhole
  let whole := start.upTo (← here)
  match whole.head?.or first.head? with
  | some t => report (.atToken t (.unmodeled what (quoteTokens whole)))
  | none => pure ()
  return {}

/-- A template. Explicit instantiations, and members of class templates outside of their class, declare
nothing new. -/
def template (P : Nested) (member : Option MemberContext) : Parser Declared := do
  let start ← here
  let origin := (← peek).loc
  let _ ← consumeKw .template
  if ← isNext .less then
    let params ← templateParams P
    let t ← peek
    if t.isKw .template then skipped
    else if t.isKw .usingKw then unmodeled start "alias template"
    else if t.isKw .friend then unmodeled start "template friend"
    else declaration P member (some params) origin
  else skipped

/-- Whether an identifier and an equals sign come next. -/
def isAssignment : Parser Bool := do
  return (← isNextIdentifier) && (← nth 1).is .eq

/-- An alias. Other declarations with `using` only affect how names are looked up. -/
def aliasDeclaration (P : Nested) : Parser Declared := do
  let origin := (← peek).loc
  let _ ← consumeKw .usingKw
  if ← isAssignment then
    let name ← advance
    let _ ← advance
    let ty ← typeExpr P (Grammar.specifiers P none)
    let _ ← consume .semicolon
    return .ofItem (.typedef ⟨name.text, ty⟩) origin
  else skipped

/-- A declaration of any kind, within a record or outside of any. -/
def anyDeclaration (P : Nested) (member : Option MemberContext) : Parser Declared := do
  let t ← peek
  if t.isKw .template then template P member
  else if t.isKw .usingKw then aliasDeclaration P
  else if t.isWordIn ["static_assert"] then skipped
  else declaration P member none t.loc

/-- The parsers of what may nest, one level deeper. -/
def Nested.step (P : Nested) : Nested where
  type := typeExpr P (Grammar.specifiers P none)
  specifiers := Grammar.specifiers P none
  declarator := Grammar.declarator P
  templateParams := Grammar.templateParams P
  member m := anyDeclaration P (some m)

/-- Some parsers that are put together only when one of them runs. -/
def Nested.delayed (P : Unit → Nested) : Nested where
  type c s := (P ()).type c s
  specifiers c s := (P ()).specifiers c s
  declarator c s := (P ()).declarator c s
  templateParams c s := (P ()).templateParams c s
  member m c s := (P ()).member m c s

/-- Putting parsers together later makes no difference to them. -/
theorem Nested.delayed_eq (P : Unit → Nested) : Nested.delayed P = P () := rfl

/-- The parsers of what may nest, with some levels. Each level reads a token, so that as many levels as
there are tokens ahead are enough. A level takes time only where it is reached. -/
def Nested.upTo : Nat → Nested
  | 0 => .nothing
  | n + 1 => .delayed fun _ => (upTo n).step

end HeaderDecl.Grammar
