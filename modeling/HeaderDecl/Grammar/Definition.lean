import HeaderDecl.Grammar.Path
import HeaderDecl.Grammar.Recovery

/-!
Records and enums.
-/

namespace HeaderDecl.Grammar

open HeaderDecl.Grammar.Parser

/-! ### Records -/

def accessOf? (t : Token) : Option Access :=
  if t.isKw .publicKw then some .pub
  else if t.isKw .protectedKw then some .prot
  else if t.isKw .privateKw then some .priv
  else none

/-- A base class. Without an access specifier it has the access that members have before any label. -/
def base (P : Nested) (kind : RecordKind) : Parser (BaseSpec PathExpr) := do
  let before ← takeKw .virtual
  let access := accessOf? (← peek)
  if access.isSome then let _ ← advance
  let after ← takeKw .virtual
  let name ← namePath P
  let _ ← take .ellipsis
  return ⟨name, access.getD kind.defaultAccess, before || after⟩

def bases (P : Nested) (kind : RecordKind) : Parser (List (BaseSpec PathExpr)) :=
  collect do
    let b ← base P kind
    return ([b], ← take .comma)

/-- What is known of the members so far: the access in force, and the number of fields. -/
structure MemberState where
  access : Access
  fieldCount : Nat := 0

/-- An access label, a semicolon or a member. -/
def memberStep (P : Nested) (name : Option String) (m : MemberState) :
    Parser (List Declared × MemberState × Bool) := do
  if ← atEndOr [.rbrace] then return ([], m, false)
  let t ← peek
  match accessOf? t with
  | some access =>
    if (← nth 1).is .colon then
      let _ ← advance
      let _ ← advance
      return ([], { m with access }, true)
  | none => pure ()
  if ← take .semicolon then return ([], m, true)
  let d ← recovering (P.member ⟨name, m.access, m.fieldCount⟩)
  return ([d], { m with fieldCount := m.fieldCount + d.fields.length }, true)

/-- The members of a record, in braces. -/
def recordBody (P : Nested) (name : Option String) (kind : RecordKind) : Parser (List Declared) := do
  let _ ← consume .lbrace
  let members ← within name.toList (collectFrom (memberStep P name) { access := kind.defaultAccess })
  let _ ← consume .rbrace
  return members

def recordKindOf (t : Token) : RecordKind :=
  if t.isKw .struct then .struct else if t.isKw .klass then .klass else .union

/-- Whether the name that was read stands before the name of a record, and so can only be a macro. -/
def isBeforeName (path : Option PathExpr) : Parser Bool := do
  let next ← peek
  let after ← nth 1
  return path.any NamePath.isSimple && next.kind == .identifier && !next.isWordIn ["final"] &&
    (after.is .lbrace || after.is .colon)

/-- A record from its keyword on: a definition, or a name that may declare it. -/
def record (P : Nested) (s : Specifiers) : Parser Specifiers := do
  let kind := recordKindOf (← advance)
  skipAttributes
  let start ← here
  let path ← tagName P
  -- In `struct API Name`, the first name is the macro.
  if ← isBeforeName path then
    goTo start
    unknownMacro
  if ← isNextWord "final" then let _ ← advance
  let bases ← if ← take .colon then bases P kind else pure []
  let name := path.map (·.last.name)
  if ← isNext .lbrace then
    let members ← recordBody P name kind
    let fields := members.flatMap Declared.fields
    let methods := members.flatMap Declared.methods
    let r : ParsedRecord := ⟨name, kind, fields, methods, bases, true, false⟩
    let nested := members.flatMap Declared.items
    return { s with defined := some { body := .inl r, nested, path } }
  else match path with
    | none => failHere .expectedName
    | some p => return { s with
        base := some (.elaborated kind.toNamed p)
        forward := some { body := .inl (.forward p.last.name kind), path } }

/-! ### Enums -/

def enumerator : Parser Enumerator := do
  let name ← consumeKind .identifier
  skipAttributes
  let value ← if ← take .eq then some <$> value [.comma, .rbrace] else pure none
  return ⟨name.text, value⟩

def enumerators : Parser (List Enumerator) := do
  let _ ← consume .lbrace
  let members ← commaSeparated .rbrace enumerator
  let _ ← consume .rbrace
  return members

/-- An enum from its keyword on: a definition, or a name that may declare it. -/
def enum (P : Nested) (s : Specifiers) : Parser Specifiers := do
  let _ ← consumeKw .enum
  let isClass ← takeKw .klass
  let isScoped ← if isClass then pure true else takeKw .struct
  skipAttributes
  let path ← tagName P
  let underlying ← if ← take .colon then P.type else pure (.primitive .int)
  let e : EnumDecl TypeExpr := ⟨path.map (·.last.name), isScoped, underlying, [], false, false⟩
  if ← isNext .lbrace then
    let members ← enumerators
    return { s with defined := some { body := .inr { e with members, complete := true }, path } }
  else match path with
    | none => failHere .expectedName
    | some p => return { s with
        base := some (.elaborated .enum p)
        forward := some { body := .inr e, path } }

end HeaderDecl.Grammar
