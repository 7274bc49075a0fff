import HeaderDecl.Grammar.Cursor
import HeaderDecl.Grammar.Report

/-!
Parsers over the tokens ahead of the end token. A parser reports findings whether it succeeds or not.
-/

namespace HeaderDecl.Grammar

/-- The use of an unknown macro: the place where it begins, and the one behind it. -/
structure Invocation where
  start : Cursor
  after : Cursor

/-- Why and where a parser failed. -/
structure Failure where
  cause : Cause
  site : Token
  invocation : Option Invocation := none

/-- Why a parser stopped without a value. A failure may be recovered from. The others would be faults of
the grammar, and nothing recovers from them. -/
inductive Stop where
  | failure (e : Failure)
  /-- Something that repeats or nests does not get on. -/
  | endless
  /-- More tokens were asked for than are ahead. -/
  | outOfRange

/-- What surrounds a parser: the end token, and the names of the enclosing scopes. -/
structure Context where
  eof : Token
  scope : List String := []

/-- What a parser found, and its value with the place it has got to. -/
structure Outcome (α : Type) where
  reports : List Report
  result : Except Stop (α × Cursor)

def Parser (α : Type) := Context → Cursor → Outcome α

namespace Parser

variable {α β σ : Type}

/-- Puts reports in front of an outcome. -/
def Outcome.after (reports : List Report) (o : Outcome α) : Outcome α :=
  { o with reports := reports ++ o.reports }

protected def pure (a : α) : Parser α := fun _ s => ⟨[], .ok (a, s)⟩

protected def bind (p : Parser α) (f : α → Parser β) : Parser β := fun c s =>
  match p c s with
  | ⟨rs, .ok (a, s')⟩ => Outcome.after rs (f a c s')
  | ⟨rs, .error e⟩ => ⟨rs, .error e⟩

instance : Monad Parser where
  pure := Parser.pure
  bind := Parser.bind

/-! ### Tokens -/

/-- The `n`th token from here. The end token is never passed. -/
def nth (n : Nat) : Parser Token := fun c s => ⟨[], .ok (s.ahead[n]?.getD c.eof, s)⟩

def peek : Parser Token := nth 0

def here : Parser Cursor := fun _ s => ⟨[], .ok (s, s)⟩

/-- Goes on at some other place. -/
def goTo (s : Cursor) : Parser Unit := fun _ _ => ⟨[], .ok ((), s)⟩

/-- The current token, which is passed unless it is the end token. -/
def advance : Parser Token := fun c s => ⟨[], .ok (s.ahead.head?.getD c.eof, s.drop 1)⟩

def scope : Parser (List String) := fun c s => ⟨[], .ok (c.scope, s)⟩

/-- Runs a parser within further scopes. -/
def within (names : List String) (p : Parser α) : Parser α := fun c s =>
  p { c with scope := c.scope ++ names } s

def report (r : Report) : Parser Unit := fun _ s => ⟨[r], .ok ((), s)⟩

def reportAll (rs : List Report) : Parser Unit := fun _ s => ⟨rs, .ok ((), s)⟩

/-! ### Failure -/

def stop (reason : Stop) : Parser α := fun _ _ => ⟨[], .error reason⟩

def failWith (e : Failure) : Parser α := stop (.failure e)

def failAt (site : Token) (cause : Cause) : Parser α := failWith { cause, site }

def failHere (cause : Cause) : Parser α := do
  failAt (← peek) cause

/-- Runs a parser. If it fails, nothing has been read, but what it reported stays. -/
def attempt (p : Parser α) : Parser (Except Failure α) := fun c s =>
  match p c s with
  | ⟨rs, .ok (a, s')⟩ => ⟨rs, .ok (.ok a, s')⟩
  | ⟨rs, .error (.failure e)⟩ => ⟨rs, .ok (.error e, s)⟩
  | ⟨rs, .error reason⟩ => ⟨rs, .error reason⟩

/-- Runs a parser. If it fails, it leaves no trace. -/
def speculate (p : Parser α) : Parser (Option α) := fun c s =>
  match p c s with
  | ⟨rs, .ok (a, s')⟩ => ⟨rs, .ok (some a, s')⟩
  | ⟨_, .error (.failure _)⟩ => ⟨[], .ok (none, s)⟩
  | ⟨rs, .error reason⟩ => ⟨rs, .error reason⟩

/-! ### Matching -/

def isNext (p : Punct) : Parser Bool := do return (← peek).is p

def isNextKw (k : Keyword) : Parser Bool := do return (← peek).isKw k

def isNextIdentifier : Parser Bool := do return (← peek).kind == .identifier

/-- Whether the next token is an identifier with the given spelling. -/
def isNextWord (word : String) : Parser Bool := do return (← peek).isWordIn [word]

/-- Whether some kind of token comes next; it is passed if so. -/
def takeKind (kind : TokenKind) : Parser Bool := do
  if (← peek).kind == kind then
    let _ ← advance
    return true
  else return false

def take (p : Punct) : Parser Bool := takeKind (.punct p)

def takeKw (k : Keyword) : Parser Bool := takeKind (.kw k)

/-- Passes a token of the given kind, and fails at any other one. -/
def consumeKind (kind : TokenKind) : Parser Token := do
  let t ← peek
  if t.kind == kind then advance else failAt t (.unexpected t.kind kind)

def consume (p : Punct) : Parser Token := consumeKind (.punct p)

def consumeKw (k : Keyword) : Parser Token := consumeKind (.kw k)

def consumeAnyKw (ks : List Keyword) : Parser Token := do
  let t ← peek
  if ks.any t.isKw then advance else failAt t (.unexpectedAny t.kind (ks.map .kw))

/-- Whether one of the given punctuators or the end comes next. -/
def atEndOr (ps : List Punct) : Parser Bool := do
  let t ← peek
  return t.isEof || ps.any t.is

/-! ### Skipping -/

/-- Passes those of the tokens ahead that a rule picks from the front, and gives them. -/
def skip (pick : List Token → List Token) : Parser (List Token) := fun _ s =>
  let skipped := pick s.ahead
  if skipped.length ≤ s.left then ⟨[], .ok (skipped, s.drop skipped.length)⟩
  else ⟨[], .error .outOfRange⟩

/-- Skips to one of some punctuators, and gives what was skipped. -/
def skipTo (stops : List Punct) : Parser (List Token) := skip (tokensUntil stops 0)

def skipGroup : Parser Unit := do let _ ← skip (groupTokens 0)

/-- Skips the declaration that begins here, and gives what was skipped. -/
def skipWhole : Parser (List Token) := skip (declarationTokens 0)

def skipAttributes : Parser Unit := fun _ s => ⟨[], .ok ((), s.afterAttributes)⟩

/-! ### Repetition -/

/-- Repeats a step on a state while it says to go on. Each repetition has to read a token. -/
def loop (step : σ → Parser (σ × Bool)) (a : σ) : Parser σ := fun c s =>
  match step a c s with
  | ⟨rs, .error e⟩ => ⟨rs, .error e⟩
  | ⟨rs, .ok ((a', false), s')⟩ => ⟨rs, .ok (a', s')⟩
  | ⟨rs, .ok ((a', true), s')⟩ =>
    if s'.left < s.left then Outcome.after rs (loop step a' c s')
    else ⟨rs, .error .endless⟩
termination_by _ s => s.left

/-- Repeats a step on a state while it says to go on, and gives all that the steps gave. -/
def collectFrom (step : σ → Parser (List α × σ × Bool)) (a : σ) : Parser (List α) := fun c s =>
  match step a c s with
  | ⟨rs, .error e⟩ => ⟨rs, .error e⟩
  | ⟨rs, .ok ((xs, _, false), s')⟩ => ⟨rs, .ok (xs, s')⟩
  | ⟨rs, .ok ((xs, a', true), s')⟩ =>
    if s'.left < s.left then
      match collectFrom step a' c s' with
      | ⟨rs', .ok (ys, s'')⟩ => ⟨rs ++ rs', .ok (xs ++ ys, s'')⟩
      | ⟨rs', .error e⟩ => ⟨rs ++ rs', .error e⟩
    else ⟨rs, .error .endless⟩
termination_by _ s => s.left

/-- Repeats a step while it says to go on, and gives all that the steps gave. -/
def collect (step : Parser (List α × Bool)) : Parser (List α) :=
  collectFrom (fun () => do
    let (xs, more) ← step
    return (xs, (), more)) ()

/-- A list whose elements are separated by commas, up to a closing punctuator that is not read. -/
def commaSeparated (close : Punct) (element : Parser α) : Parser (List α) :=
  collect do
    if ← atEndOr [close] then return ([], false)
    let a ← element
    return ([a], ← take .comma)

end Parser

end HeaderDecl.Grammar
