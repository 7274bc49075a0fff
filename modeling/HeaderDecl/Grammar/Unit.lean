import HeaderDecl.Grammar.Declaration

/-!
All the declarations of a preprocessed file. What cannot be read is skipped and reported.
-/

namespace HeaderDecl

namespace Grammar

open HeaderDecl.Grammar.Parser

/-- Items up to a closing punctuator that is not read, or up to the end. -/
def items (close : List Punct) (item : Parser Declared) : Parser (List Item) :=
  collect do
    if ← atEndOr close then return ([], false)
    if ← take .semicolon then return ([], true)
    let d ← recovering item
    return (d.items, true)

/-- Items within namespaces, the first one outermost. -/
def inNamespaces (origin : Origin) (items : List Item) : List String → Item
  | [] => .namespaceItem none items origin
  | [name] => .namespaceItem (some name) items origin
  | name :: rest => .namespaceItem (some name) [inNamespaces origin items rest] origin

/-- The names of a namespace within others. -/
def namespaceNames : Parser (List String) :=
  collect do
    match ← takeName with
    | none => return ([], false)
    | some name =>
      let more ← take .colonColon
      if more then let _ ← takeKw .inlineKw
      return ([name], more)

/-- A namespace around a block of items. The names of an inline one are left out, and an alias declares
nothing. -/
def namespaceBlock (block : Parser (List Item)) (isInline : Bool) : Parser Declared := do
  let origin := (← peek).loc
  let _ ← consumeKw .namespaceKw
  if ← isAssignment then skipped
  else
    let names ← namespaceNames
    skipAttributes
    let _ ← consume .lbrace
    -- What stands in an inline namespace is found in the scope around it.
    let names := if isInline then [] else names
    let items ← within names block
    let _ ← consume .rbrace
    return { items := [inNamespaces origin items names] }

/-- A block of items with the linkage of a language. Its items stay even if it is not closed. -/
def linkageBlock (block : Parser (List Item)) : Parser Declared := do
  let _ ← consumeKw .externKw
  let _ ← consumeKind .string
  let _ ← consume .lbrace
  let items ← block
  match ← attempt (consume .rbrace) with
  | .ok _ => return { items }
  | .error e => return { items, failure := some e }

/-- A namespace, a linkage block or a declaration. -/
def item (P : Nested) (block : Parser (List Item)) : Parser Declared := do
  let t ← peek
  let next ← nth 1
  if t.isKw .namespaceKw then namespaceBlock block false
  else if t.isKw .inlineKw && next.isKw .namespaceKw then
    let _ ← advance
    namespaceBlock block true
  else if t.isKw .externKw && next.kind == .string && (← nth 2).is .lbrace then linkageBlock block
  else anyDeclaration P none

/-- The items of a block, with at most the given number of blocks within one another. -/
def block (P : Nested) : Nat → Parser (List Item)
  | 0 => stop .endless
  | n + 1 => fun c s => items [.rbrace] (item P (block P n)) c s

/-- An item outside of any block. Nesting is bounded by the number of tokens ahead. -/
def topItem : Parser Declared := do
  let bound := (← here).left
  item (.upTo bound) (block (.upTo bound) bound)

def topItems : Parser (List Item) := items [] topItem

/-- The end token of a token list, and the tokens before it. If there is none, one stands where the
last token stands. -/
def splitEnd : List Token → List Token × Token
  | [] => ([], .eofAt .synthetic)
  | [t] => if t.isEof then ([], t) else ([t], .eofAt t.loc)
  | t :: ts =>
    if t.isEof then ([], t)
    else
      let (before, eof) := splitEnd ts
      (t :: before, eof)

end Grammar

/-- The declarations of a token list, and what was skipped. -/
def parseUnit (tokens : List Token) : List Item × List Grammar.Report :=
  let (ts, eof) := Grammar.splitEnd tokens
  match Grammar.topItems { eof } (.ofTokens ts) with
  | ⟨reports, .ok (items, _)⟩ => (items, reports)
  | ⟨reports, .error _⟩ => ([], reports)

end HeaderDecl
