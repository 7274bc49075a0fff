import HeaderDecl.Diagnostic
import HeaderDecl.Model.Identity

/-!
Adding declarations to a model. Nothing is declared twice in a scope.
-/

namespace HeaderDecl

/-- What became of a declaration that was to be added. -/
inductive Insertion where
  | added (r : DeclRef)
  /-- The model has an equal declaration. -/
  | duplicate (r : DeclRef)
  /-- A forward declaration gave way to its definition. -/
  | completed (r : DeclRef)
  /-- The model has another declaration, which stays. -/
  | conflict (r : DeclRef) (previous : Origin)
  | noScope
deriving DecidableEq, Repr

namespace Model

/-- The qualified name of an entry in a scope. -/
def qualifiedName (s : Scope) (e : Entry) : Option String := e.decl.name.map (Name.qualify s.path)

/-- Whether an entry has some identity, and a name if the flag is set. -/
def hasIdentity (named : Bool) (identity : Identity) (e : Entry) : Bool :=
  e.decl.name.isSome == named && e.decl.identity == some identity

/-- Puts an entry in the place of another one. -/
def replaceEntry (m : Model) (r : DeclRef) (e : Entry) : Model :=
  { m with scopes := m.scopes.modify r.scope fun s => { s with entries := s.entries.set r.entry e } }

/-- Adds an entry at the end of a scope, with the qualified name that it has there. -/
def append (m : Model) (scope : Nat) (s : Scope) (e : Entry) : Model × DeclRef :=
  let r : DeclRef := ⟨scope, s.entries.length⟩
  let scopes := m.scopes.set scope { s with entries := s.entries ++ [e] }
  match qualifiedName s e with
  | none => ({ m with scopes }, r)
  | some name => ({ m with scopes, index := m.index.insert name (m.refs name ++ [r]) }, r)

/-- The place of the declaration that a further one in a scope declares again. Without a name it has to
stand in the same scope. -/
def existing? (m : Model) (scope : Nat) (s : Scope) (e : Entry) : Option DeclRef :=
  match e.decl.identity, qualifiedName s e with
  | none, _ => none
  | some identity, some name =>
    (m.refs name).find? fun r => (m.entry? r).any (hasIdentity true identity)
  | some identity, none => (s.entries.findIdx? (hasIdentity false identity)).map (⟨scope, ·⟩)

/-- Adds a declaration to a scope, unless it is declared there already. Among equal declarations the
first one stays, a definition takes the place of a forward declaration, and of any others the first one
wins. -/
def insert (m : Model) (scope : Nat) (e : Entry) : Model × Insertion :=
  match m.scopes[scope]? with
  | none => (m, .noScope)
  | some s =>
    match (m.existing? scope s e).bind fun r => (m.entry? r).map (r, ·) with
    | none =>
      let (m, r) := m.append scope s e
      (m, .added r)
    | some (r, old) =>
      match reconcile old.decl e.decl with
      | .same => (m, .duplicate r)
      | .replace =>
        -- An enum without a name is known by its members, so it has nothing to complete.
        if e.decl.name.isSome then (m.replaceEntry r e, .completed r) else (m, .duplicate r)
      | .conflict => (m, .conflict r old.origin)

/-- The diagnostic for a declaration that was refused. -/
def conflictDiagnostic (name : Option String) (e : Entry) (previous : Origin) : Diagnostic :=
  let name := name.getD "<anonymous>"
  .atLocation .conflictingRedeclaration e.origin
    s!"conflicting redeclaration of {e.decl.kindName} `{name}` (first defined at {previous.render})"

/-- Adds a declaration, and reports it if it is refused. -/
def insertReporting (m : Model) (scope : Nat) (e : Entry) : Model × List Diagnostic :=
  let name := m.scopes[scope]?.bind fun s => qualifiedName s e
  match m.insert scope e with
  | (m, .conflict _ previous) => (m, [conflictDiagnostic name e previous])
  | (m, _) => (m, [])

/-- Adds declarations in turn. -/
def insertAll (m : Model) (scope : Nat) : List Entry → Model × List Diagnostic
  | [] => (m, [])
  | e :: es =>
    let (m, ds) := m.insertReporting scope e
    let (m, ds') := m.insertAll scope es
    (m, ds ++ ds')

def mergeScopes (m : Model) : List Scope → Model × List Diagnostic
  | [] => (m, [])
  | s :: ss =>
    let (m, id) := m.scopeOrInsert s.path s.kind
    let (m, ds) := m.insertAll id s.entries
    let (m, ds') := m.mergeScopes ss
    (m, ds ++ ds')

/-- Adds all that another model has, scope by scope. -/
def merge (m other : Model) : Model × List Diagnostic := m.mergeScopes other.scopes

end Model

end HeaderDecl
