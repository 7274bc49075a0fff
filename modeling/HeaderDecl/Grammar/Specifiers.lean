import HeaderDecl.Grammar.Definition

/-!
The specifiers in front of a declaration.
-/

namespace HeaderDecl.Grammar

open HeaderDecl.Grammar.Parser

/-- Whether the name that was read as a type can only be a macro, as in `API void f();`. -/
def looksLikeMacro : Parser Bool := do
  let next ← peek
  let after ← nth 1
  return next.kind.isPrimitive ||
    [Keyword.struct, .klass, .union, .enum, .typename].any next.isKw ||
    (next.kind == .identifier &&
      (after.kind == .identifier || after.is .star || after.is .amp || after.is .ampAmp))

/-- The name of a type, or the end of the specifiers if a constructor begins here: one of the record
with the given name, or one with a scope. -/
def typeName (P : Nested) (recordName : Option String) (s : Specifiers) :
    Parser (Specifiers × Bool) := do
  let start ← here
  let t ← peek
  if t.kind == .identifier && (← nth 1).is .lparen then
    if recordName == some t.text then return (s, false)
    unknownMacro
  let path ← namePath P
  -- A constructor outside of its class has no type of its own.
  if path.isQualified && (← isNext .lparen) then
    goTo start
    return (s, false)
  if path.isSimple && (← looksLikeMacro) then
    goTo start
    unknownMacro
  return ({ s with base := some (.path path) }, true)

/-- One specifier, or the end of them. -/
def specifierStep (P : Nested) (recordName : Option String) (s : Specifiers) :
    Parser (Specifiers × Bool) := do
  skipAttributes
  let t ← peek
  let passed (s : Specifiers) : Parser (Specifiers × Bool) := do
    let _ ← advance
    return (s, true)
  match t.kind with
  | .kw .typedef => passed { s with isTypedef := true }
  | .kw .externKw =>
    -- The linkage of a single declaration is passed over.
    if (← nth 1).kind == .string then let _ ← advance
    passed { s with isExtern := true }
  | .kw .static => passed { s with isStatic := true }
  | .kw .inlineKw => passed { s with isInline := true }
  | .kw .virtual => passed { s with isVirtual := true }
  | .kw .explicit => passed { s with isExplicit := true }
  | .kw .friend => passed { s with isFriend := true }
  | .kw .mutable | .kw .register | .kw .constexpr | .kw .restrict => passed s
  | .kw .const => passed { s with qualifiers := { s.qualifiers with isConst := true } }
  | .kw .volatile => passed { s with qualifiers := { s.qualifiers with isVolatile := true } }
  | .kw .struct | .kw .klass | .kw .union =>
    if s.hasType then return (s, false) else return (← record P s, true)
  | .kw .enum => if s.hasType then return (s, false) else return (← enum P s, true)
  | .kw .typename =>
    if s.hasType then return (s, false)
    else
      let _ ← advance
      return ({ s with base := some (.dependent (← namePath P)) }, true)
  | .kw k =>
    if k.isPrimitive && s.base.isNone && s.defined.isNone then
      passed { s with primitives := k :: s.primitives }
    else return (s, false)
  | .identifier =>
    if ignoredSpecifiers.contains t.text then passed s
    else if s.hasType then return (s, false)
    else typeName P recordName s
  | .punct .colonColon => if s.hasType then return (s, false) else typeName P recordName s
  | _ => return (s, false)

/-- The specifiers of a declaration, within the record with the given name. -/
def specifiers (P : Nested) (recordName : Option String) : Parser Specifiers :=
  loop (specifierStep P recordName) {}

end HeaderDecl.Grammar
