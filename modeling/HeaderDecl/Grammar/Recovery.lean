import HeaderDecl.Grammar.Declared

/-!
Recovery: a declaration that cannot be read is skipped and reported, and reading goes on after it.
-/

namespace HeaderDecl.Grammar

open HeaderDecl.Grammar.Parser

/-- Goes to the end of the declaration at `start`. At least one token is skipped, and what was skipped
is given. -/
def skipFrom (start : Cursor) : Parser (List Token) := do
  goTo start
  match ← skipWhole with
  | [] =>
    let _ ← advance
    return start.ahead.take 1
  | skipped => return skipped

/-- Whether a macro invocation stands on a line of its own, or where a declaration ends. -/
def standsAlone (i : Invocation) : Parser Bool := do
  let next := i.after.ahead.head?
  return next.all fun t => t.lineStart || t.is .semicolon || t.is .rbrace

/-- Skips the declaration at `start`, which failed. An unknown macro that stands alone takes nothing
with it. -/
def recover (start : Cursor) (e : Failure) : Parser Unit := do
  match e.cause, e.invocation with
  | .unsupportedMacro name, some i =>
    -- Only a macro that the declaration begins with may stand alone.
    if i.start.left = start.left && (← standsAlone i) then
      goTo i.after
      let _ ← take .semicolon
    else
      let _ ← skipFrom start
    report (.atToken e.site (.unsupportedMacro name))
  | cause, _ =>
    let skipped ← skipFrom start
    let first := skipped.head?.getD e.site
    report (.atToken first (.skippedDeclaration (quoteTokens skipped) cause))

/-- Reads a declaration, and skips it if it fails. What it declared before it failed stays. -/
def recovering (p : Parser Declared) : Parser Declared := do
  let start ← here
  let d := match ← attempt p with
    | .ok d => d
    | .error e => { failure := some e }
  if let some e := d.failure then recover start e
  return d

end HeaderDecl.Grammar
