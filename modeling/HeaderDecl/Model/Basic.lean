import HeaderDecl.Decl.TypeRef
import HeaderDecl.NameMap

/-!
The declaration model: resolved declarations in scopes, with an index of scopes by path and one of
declarations by qualified name.
-/

namespace HeaderDecl

/-- A declaration and where it was found. -/
structure Entry where
  decl : ResolvedDecl
  origin : Origin
deriving DecidableEq

inductive ScopeKind where
  | global
  | namespaceScope
  /-- What is declared within a record. -/
  | record
deriving DecidableEq, Repr

def ScopeKind.render : ScopeKind → String
  | global => "global"
  | namespaceScope => "namespace"
  | record => "record"

/-- A scope, with the place of its parent in the model. Its entries stand in source order. -/
structure Scope where
  path : String
  kind : ScopeKind
  parent : Option Nat
  entries : List Entry
deriving DecidableEq

/-- The last segment of the path. -/
def Scope.name (s : Scope) : String := (Name.splitScope s.path).2

/-- The place of a declaration in a model. -/
structure DeclRef where
  scope : Nat
  entry : Nat
deriving DecidableEq, Repr

/-- A declaration model. The global scope comes first, and every scope after its parent. -/
structure Model where
  scopes : List Scope
  scopeIndex : NameMap Nat
  index : NameMap (List DeclRef)

namespace Model

/-- The place of the global scope. -/
def global : Nat := 0

def empty : Model where
  scopes := [⟨"", .global, none, []⟩]
  scopeIndex := NameMap.empty.insert "" global
  index := .empty

/-! ### Looking up -/

def scope? (m : Model) (path : String) : Option Scope :=
  (m.scopeIndex.get? path).bind fun id => m.scopes[id]?

def entry? (m : Model) (r : DeclRef) : Option Entry :=
  m.scopes[r.scope]?.bind fun s => s.entries[r.entry]?

/-- The places of the declarations with a qualified name. -/
def refs (m : Model) (name : String) : List DeclRef := (m.index.get? name).getD []

/-- The declarations with a qualified name, in the order they were added. -/
def lookup (m : Model) (name : String) : List Entry := (m.refs name).filterMap m.entry?

/-- The first declaration with a qualified name. -/
def get? (m : Model) (name : String) : Option Entry := (m.lookup name).head?

def size (m : Model) : Nat := (m.scopes.flatMap (·.entries)).length

def isEmpty (m : Model) : Bool := m.size = 0

/-! ### Scopes -/

def addScope (m : Model) (path : String) (kind : ScopeKind) (parent : Nat) : Model × Nat :=
  let id := m.scopes.length
  ({ m with
      scopes := m.scopes ++ [⟨path, kind, some parent, []⟩]
      scopeIndex := m.scopeIndex.insert path id }, id)

/-- The scope with a path. It is added if there is none, and so are the namespaces around it. -/
def scopeOrInsert (m : Model) (path : String) (kind : ScopeKind) : Model × Nat :=
  match m.scopeIndex.get? path with
  | some id => (m, id)
  | none =>
    let around := (Name.splitScope path).1
    if h : around = "" then m.addScope path kind global
    else
      have := Name.length_splitScope_lt h
      let (m, parent) := m.scopeOrInsert around .namespaceScope
      m.addScope path kind parent
termination_by path.length

end Model

end HeaderDecl
