import HeaderDecl.Grammar.Path

/-!
Declarators, and what may follow them.
-/

namespace HeaderDecl.Grammar

open HeaderDecl.Grammar.Parser

/-! ### Pointers and references -/

/-- The qualifiers of a pointer. -/
def pointerQualifiers : Parser Qualifiers :=
  loop (fun q => do
    let t ← peek
    if t.isKw .const then
      let _ ← advance
      return ({ q with isConst := true }, true)
    else if t.isKw .volatile then
      let _ ← advance
      return ({ q with isVolatile := true }, true)
    else return (q, ← takeKw .restrict)) {}

/-- Pointer and reference operators, and whether `...` stands among them. -/
def pointerOps : Parser (List TypeOp × Bool) := do
  let pieces ← collect do
    skipAttributes
    if ← take .star then return ([some (.pointer (← pointerQualifiers))], true)
    else if ← take .amp then return ([some .reference], true)
    else if ← take .ampAmp then return ([some .rvalueReference], true)
    else if ← take .ellipsis then return ([none], true)
    else if (← peek).isWordIn callingConventions then
      let _ ← advance
      return ([], true)
    else return ([], false)
  return (pieces.filterMap id, pieces.any Option.isNone)

/-- Whether a parenthesis that comes next opens a declarator, not a parameter list. -/
def isGrouping : Parser Bool := do
  let after ← nth 1
  return (← isNext .lparen) && (after.is .star || after.is .amp || after.is .ampAmp ||
    after.isKw .attributeSpec || after.isWordIn callingConventions)

/-! ### Names -/

/-- A type with pointer and reference operators and nothing else, as conversion operators name it. -/
def conversionTarget (P : Nested) : Parser TypeExpr := do
  let specs ← P.specifiers
  let base ← requireType specs
  let (ops, _) ← pointerOps
  return applyOps base ops

/-- The rest of an operator that is spelled in several tokens, such as `>>=`. -/
def operatorRest (first : Token) : Parser String := do
  let (text, _) ← loop (fun ((text, last) : String × Token) => do
    let next ← peek
    if (last.is .greater || last.is .lessEq) && (next.is .greater || next.is .greaterEq) &&
        !next.spaced then
      let _ ← advance
      return ((text ++ next.text, next), true)
    else return ((text, last), false)) (first.text, first)
  return text

/-- What follows the keyword `operator`. -/
def operatorName (P : Nested) : Parser DeclName := do
  let t ← peek
  if t.is .lparen then
    let _ ← advance
    let _ ← consume .rparen
    return .operator "operator()"
  else if t.is .lbracket then
    let _ ← advance
    let _ ← consume .rbracket
    return .operator "operator[]"
  else if t.isWordIn ["new", "delete"] then
    let _ ← advance
    if (← isNext .lbracket) && (← nth 1).is .rbracket then
      let _ ← advance
      let _ ← advance
      return .operator s!"operator {t.text}[]"
    else return .operator s!"operator {t.text}"
  else if overloadable.any t.is then
    let _ ← advance
    return .operator ("operator" ++ (← operatorRest t))
  else return .conversion (← conversionTarget P)

/-- A segment of a declared name with its template arguments, and whether the name goes on. -/
def declaratorSegment (P : Nested) : Parser (String × Bool) := do
  let name ← advance
  -- If these are not template arguments, the name ends here.
  if ← isNext .less then let _ ← speculate (templateArgs P)
  let after ← nth 1
  if (← isNext .colonColon) &&
      (after.kind == .identifier || after.isKw .operator || after.is .tilde) then
    let _ ← advance
    return (name.text, true)
  else return (name.text, false)

/-- A declared name, and whether a scope stands before it. -/
def declaratorName (P : Nested) : Parser (DeclName × Bool) := do
  let absolute ← take .colonColon
  let (name, qualified) ← loop (fun ((_, qualified) : Option DeclName × Bool) => do
    let t ← peek
    if t.isKw .operator then
      let _ ← advance
      return ((some (← operatorName P), qualified), false)
    else if t.is .tilde then
      let _ ← advance
      let name ← consumeKind .identifier
      return ((some (.destructor name.text), qualified), false)
    else if t.kind == .identifier then
      let (name, more) ← declaratorSegment P
      return ((some (.plain name), qualified || more), more)
    else failHere .expectedName) (none, absolute)
  match name with
  | some name => return (name, qualified)
  | none => failHere .expectedName

/-! ### Functions -/

/-- A parameter. Its default is skipped. -/
def parameter (P : Nested) : Parser (Parameter TypeExpr) := do
  let specs ← P.specifiers
  let base ← requireType specs
  let d ← P.declarator
  let hasDefault ← take .eq
  if hasDefault then let _ ← skipTo [.comma, .rparen]
  return ⟨d.paramName?, applyOps base d.ops, hasDefault⟩

/-- A parameter list after its opening parenthesis. -/
def parameters (P : Nested) : Parser FunctionSuffix := do
  -- A lone `void` stands for an empty list.
  if (← isNextKw .void) && (← nth 1).is .rparen then let _ ← advance
  let pieces ← collect do
    if ← atEndOr [.rparen] then return ([], false)
    if ← take .ellipsis then return ([none], false)
    let p ← parameter P
    return ([some p], ← take .comma)
  let _ ← consume .rparen
  return { params := pieces.filterMap id, variadic := pieces.any Option.isNone }

/-- What follows a parameter list: qualifiers, exception specifications and a trailing return type. -/
def functionTail (P : Nested) : FunctionSuffix → Parser FunctionSuffix :=
  loop fun s => do
    skipAttributes
    let t ← peek
    if t.isKw .const then
      let _ ← advance
      return ({ s with isConst := true }, true)
    else if t.isKw .volatile || t.is .amp || t.is .ampAmp || t.isWordIn ["override", "final"] then
      let _ ← advance
      return (s, true)
    else if t.isWordIn ["noexcept", "throw"] then
      let _ ← advance
      if ← isNext .lparen then skipGroup
      return (s, true)
    else if t.is .arrow then
      let _ ← advance
      return ({ s with trailing := some (← P.type) }, true)
    else return (s, false)

/-! ### Declarators -/

/-- The array and function operators behind a declarator, outermost first. -/
def suffixes (P : Nested) : Parser (List TypeOp) :=
  collect do
    skipAttributes
    if ← take .lbracket then
      let size ← if ← isNext .rbracket then pure none else some <$> value [.rbracket]
      let _ ← consume .rbracket
      return ([.array size], true)
    else if ← take .lparen then
      let s ← parameters P
      return ([.function (← functionTail P s)], true)
    else return ([], false)

/-- The innermost part of a declarator: a declarator in parentheses, a name, or nothing. -/
def declaratorCore (P : Nested) (first : Token) (pack : Bool) : Parser Declarator := do
  let t ← peek
  if ← isGrouping then
    let _ ← advance
    let d ← P.declarator
    let _ ← consume .rparen
    return d
  else if t.kind == .identifier || t.is .colonColon || t.isKw .operator || t.is .tilde then
    let (name, qualified) ← declaratorName P
    return ⟨some name, qualified, pack, t, []⟩
  else return ⟨none, false, pack, first, []⟩

/-- A declarator. What stands farther from the name applies first. -/
def declarator (P : Nested) : Parser Declarator := do
  let first ← peek
  let (ops, pack) ← pointerOps
  let core ← declaratorCore P first pack
  let suffixes ← suffixes P
  return { core with ops := ops ++ suffixes.reverse ++ core.ops }

/-- A type with an abstract declarator. -/
def typeExpr (P : Nested) (specifiers : Parser Specifiers) : Parser TypeExpr := do
  let specs ← specifiers
  let base ← requireType specs
  let d ← declarator P
  if d.name.isSome then failAt d.token .unexpectedName
  return applyOps base d.ops

/-! ### After a declarator -/

/-- The initialisers of a constructor, each with its group. -/
def constructorInitializers : Parser Unit := do
  let _ ← loop (fun () => do
    let _ ← skipTo [.lparen, .lbrace]
    skipGroup
    return ((), ← take .comma)) ()

/-- What follows the `=` of a declarator. Of a function it may say that it is pure. -/
def initializer (isFunction : Bool) : Parser Tail := do
  let t ← peek
  if isFunction && t.kind == .number && t.text == "0" then
    let _ ← advance
    return { isPure := true }
  else
    if isFunction && ["default", "delete"].contains t.text then let _ ← advance
    else let _ ← skipTo [.comma, .semicolon]
    return {}

/-- What follows a declarator: a bit width, an initialiser or a body. -/
def tail (d : Declarator) : Parser Tail := do
  let isFunction := d.functionSuffix?.isSome
  skipAttributes
  let bitWidth ←
    if !isFunction && (← isNext .colon) then
      let _ ← advance
      some <$> value [.comma, .semicolon, .eq, .lbrace]
    else pure none
  if ← take .eq then
    return { ← initializer isFunction with bitWidth }
  if isFunction then
    if ← take .colon then constructorInitializers
  -- Braces after an object are an initialiser, not a body.
  if ← isNext .lbrace then
    skipGroup
    return { bitWidth, hasBody := isFunction }
  return { bitWidth }

/-! ### Template parameters -/

/-- The default of a template parameter that is not a type. -/
def literalDefault : Parser (Option String) := do
  if ← take .eq then some <$> literal else return none

def templateParam (P : Nested) : Parser (TemplateParam TypeExpr) := do
  let t ← peek
  if t.isKw .typename || t.isKw .klass then
    let _ ← advance
    let pack ← take .ellipsis
    let name ← takeName
    let default ← if ← take .eq then some <$> P.type else pure none
    return ⟨name, .type default, pack⟩
  else if t.isKw .template then
    let _ ← advance
    let _ ← P.templateParams
    let _ ← consumeAnyKw [.klass, .typename]
    let pack ← take .ellipsis
    let name ← takeName
    return ⟨name, .template (← literalDefault), pack⟩
  else
    let specs ← P.specifiers
    let base ← requireType specs
    let d ← P.declarator
    return ⟨d.paramName?, .nonType (applyOps base d.ops) (← literalDefault), d.pack⟩

/-- A template parameter list in its angle brackets. -/
def templateParams (P : Nested) : Parser (List (TemplateParam TypeExpr)) := do
  let _ ← consume .less
  let params ← commaSeparated .greater (templateParam P)
  let _ ← consume .greater
  return params

end HeaderDecl.Grammar
