import HeaderDecl.Proofs.SkippedDeclarations
import HeaderDecl.Proofs.VisitedPlaces

/-!
Where definitions are written: in the specifiers of a declaration, which may itself be a member of a record
that is defined so, at any depth, and stand in blocks at any depth. Whether a definition is kept is not
said here, only where parsing comes to it.
-/

namespace HeaderDecl.Grammar

open HeaderDecl.Grammar.Parser
open Relation (ReflTransGen)

def Context.enter (c : Context) (names : List String) : Context := { c with scope := c.scope ++ names }

/-! ### Definitions in specifiers -/

/-- Where the specifiers of a declaration begin, and what surrounds it. -/
structure Site where
  nested : Nested
  member : Option MemberContext
  context : Context
  start : Cursor

namespace Site

variable (w : Site)

/-- The name of the record around it. -/
def record : Option String := w.member.bind MemberContext.record

def HasSpecifiers (specs : Specifiers) (t : Cursor) : Prop :=
  (specifiers w.nested w.record).Yields w.context w.start specs t

/-- Its specifiers come to `v`, where a record or an enum is defined. -/
def Defines (v : Cursor) (d : Defined) : Prop :=
  ∃ before after t,
    ReflTransGen (LoopGoes (specifierStep w.nested w.record) w.context) ({}, w.start) (before, v) ∧
      (specifierStep w.nested w.record before).Yields w.context v (after, true) t ∧
        before.defined = none ∧ after.defined = some d

def IsFriend : Prop := ∃ specs t, w.HasSpecifiers specs t ∧ specs.isFriend

def HasDeclarators : Prop :=
  ∃ specs t, w.HasSpecifiers specs t ∧ (next w.context t.ahead).is .semicolon = false

/-- As a typedef it gives its name to the definition in front of its declarators. -/
def GivesName (d : Defined) : Prop :=
  ∃ specs t ds u, w.HasSpecifiers specs t ∧ (next w.context t.ahead).is .semicolon = false ∧
    (declarators w.nested).Yields w.context t ds u ∧ (typedefAlias specs d ds).isSome

/-- A declaration drops a definition if it is a friend's, or if the definition has no name of its own and
is given none but stands in front of declarators. -/
def Drops (d : Defined) : Prop :=
  w.IsFriend ∨ w.HasDeclarators ∧ d.name = none ∧ ¬w.GivesName d

end Site

/-! ### Records -/

/-- A record up to where its body may begin, and what is made of it there. -/
def recordHead {β : Type} (P : Nested)
    (rest : RecordKind → Option PathExpr → List (BaseSpec PathExpr) → Parser β) : Parser β := do
  let kind := recordKindOf (← advance)
  skipAttributes
  let start ← here
  let path ← tagName P
  if ← isBeforeName path then
    goTo start
    unknownMacro
  if ← isNextWord "final" then let _ ← advance
  let bases ← if ← take .colon then bases P kind else pure []
  rest kind path bases

/-- The rest of a record: its body if it has one. -/
def recordRest (P : Nested) (s : Specifiers) (kind : RecordKind) (path : Option PathExpr)
    (bases : List (BaseSpec PathExpr)) : Parser Specifiers := do
  let name := path.map (·.last.name)
  if ← isNext .lbrace then
    let members ← recordBody P name kind
    let fields := members.flatMap Declared.fields
    let methods := members.flatMap Declared.methods
    let r : ParsedRecord := ⟨name, kind, fields, methods, bases, true, false⟩
    let nested := members.flatMap Declared.items
    return { s with defined := some { body := .inl r, nested, path } }
  else match path with
    | none => failHere .expectedName
    | some p => return { s with
        base := some (.elaborated kind.toNamed p)
        forward := some { body := .inl (.forward p.last.name kind), path } }

theorem record_eq (P : Nested) (s : Specifiers) : record P s = recordHead P (recordRest P s) := rfl

/-- The head of a record is read up to `x`. -/
def HeadAt (P : Nested) (c : Context) (v : Cursor) (kind : RecordKind) (path : Option PathExpr)
    (bases : List (BaseSpec PathExpr)) (x : Cursor) : Prop :=
  (recordHead P fun kind path bases => pure (kind, path, bases)).Yields c v (kind, path, bases) x

def isRecordKeyword (t : Token) : Bool := t.isKw .struct || t.isKw .klass || t.isKw .union

/-- Something other than a stray semicolon begins here, in front of what closes a block. -/
def BeginsItem (close : List Punct) (c : Context) (s : Cursor) : Prop :=
  ((next c s.ahead).isEof || close.any (next c s.ahead).is) = false ∧
    (next c s.ahead).is .semicolon = false

/-- No access label begins here. -/
def IsNoLabel (c : Context) (s : Cursor) : Prop :=
  (accessOf? (next c s.ahead)).isSome → (next c (s.drop 1).ahead).is .colon = false

/-- In the body of the record whose keyword is at `v`, which has the given name, a member begins at `u`. -/
def MemberAt (P : Nested) (c : Context) (v : Cursor) (name : Option String) (m : MemberState)
    (u : Cursor) : Prop :=
  isRecordKeyword (next c v.ahead) ∧
    ∃ kind path bases x, HeadAt P c v kind path bases x ∧
      name = path.map (·.last.name) ∧ (next c x.ahead).is .lbrace ∧
        ReflTransGen (GatherGoes (memberStep P name) (c.enter name.toList))
          ({ access := kind.defaultAccess }, x.drop 1) (m, u) ∧
        BeginsItem [.rbrace] (c.enter name.toList) u ∧ IsNoLabel (c.enter name.toList) u

/-- The definition `d` is written in the specifiers of `w`, which is the declaration that begins at `s` or
stands within the bodies of some records, the outermost of which that declaration defines. Each is given
with the declaration that defines it. -/
inductive InBody : Nat → Option MemberContext → Context → Cursor → List (Site × Defined) →
    Site → Defined → Prop
  | here {n : Nat} {member : Option MemberContext} {c : Context} {s t v : Cursor}
      {template : Option (List (TemplateParam TypeExpr))} {d : Defined}
      (begins : Begins (.upTo n) c s template t)
      (defines : Site.Defines ⟨.upTo n, member, c, t⟩ v d) :
      InBody n member c s [] ⟨.upTo n, member, c, t⟩ d
  | inner {n : Nat} {member : Option MemberContext} {c : Context} {s t u v : Cursor}
      {template : Option (List (TemplateParam TypeExpr))} {r d : Defined} {name : Option String}
      {m : MemberState} {outer : List (Site × Defined)} {w : Site}
      (begins : Begins (.upTo (n + 1)) c s template t)
      (defines : Site.Defines ⟨.upTo (n + 1), member, c, t⟩ v r)
      (place : MemberAt (.upTo (n + 1)) c v.afterAttributes name m u)
      (inside : InBody n (some ⟨name, m.access, m.fieldCount⟩) (c.enter name.toList) u outer w d) :
      InBody (n + 1) member c s ((⟨.upTo (n + 1), member, c, t⟩, r) :: outer) w d

/-! ### Blocks -/

/-- An item, a stray semicolon or the end of a block. -/
def itemStep (close : List Punct) (item : Parser Declared) : Parser (List Item × Bool) := do
  if ← atEndOr close then return ([], false)
  if ← take .semicolon then return ([], true)
  let d ← recovering item
  return (d.items, true)

theorem items_eq (close : List Punct) (item : Parser Declared) :
    items close item = collectFrom (gathering (itemStep close item)) () :=
  collect_eq (itemStep close item)

/-- Among the items from `s` on, one begins at `u`. -/
def ItemAt (close : List Punct) (item : Parser Declared) (c : Context) (s u : Cursor) : Prop :=
  ReflTransGen (GatherGoes (gathering (itemStep close item)) c) ((), s) ((), u) ∧ BeginsItem close c u

/-- The head of a namespace with some names, up to its first item. -/
def NamespaceHead (c : Context) (s : Cursor) (names : List String) (x : Cursor) : Prop :=
  (next c s.ahead).isKw .namespaceKw ∧ isAssignment.Yields c (s.drop 1) false (s.drop 1) ∧
    ∃ a, namespaceNames.Yields c (s.drop 1) names a ∧ (next c a.afterAttributes.ahead).is .lbrace ∧
      x = a.afterAttributes.drop 1

/-- A block begins at `u`. Its items begin at `x`. -/
inductive Opens (c : Context) (u : Cursor) : Context → Cursor → Prop
  | linkage (h : opensNamespace c u = false ∧ opensLinkage c u) : Opens c u c (u.drop 3)
  | scope {names : List String} {x : Cursor} (head : NamespaceHead c u names x) :
      Opens c u (c.enter names) x
  | inlineScope {names : List String} {x : Cursor} (keyword : (next c u.ahead).isKw .inlineKw)
      (head : NamespaceHead c (u.drop 1) names x) : Opens c u (c.enter []) x

/-- A declaration begins at `v`. It is the item that begins at `u`, or stands in that block. -/
inductive InItem (P : Nested) : Nat → Context → Cursor → Context → Cursor → Prop
  | here {n : Nat} {c : Context} {u : Cursor}
      (single : opensNamespace c u = false ∧ opensLinkage c u = false) : InItem P n c u c u
  | block {n : Nat} {c c' c'' : Context} {u v x y : Cursor} (opens : Opens c u c' x)
      (place : ItemAt [.rbrace] (item P (block P n)) c' x y) (inside : InItem P n c' y c'' v) :
      InItem P (n + 1) c u c'' v

/-- A definition is written in a unit, within the bodies of some records or of none. -/
def InUnit (tokens : List Token) (outer : List (Site × Defined)) (w : Site) (d : Defined) : Prop :=
  ∃ ts eof u c v, splitEnd tokens = (ts, eof) ∧ ItemAt [] topItem { eof } (.ofTokens ts) u ∧
    InItem (.upTo u.left) u.left { eof } u c v ∧ InBody u.left none c v outer w d

end HeaderDecl.Grammar
