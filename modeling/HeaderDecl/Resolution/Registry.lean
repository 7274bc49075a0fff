import HeaderDecl.Decl.TypeExpr
import HeaderDecl.Model.Basic

/-!
The type names that the items of a file declare, and the specializations of its templates. They are
registered before any type is resolved, so that the order of declarations does not matter.
-/

namespace HeaderDecl.Resolution

/-- Where names are looked up from: a scope, and the template parameters in effect. -/
structure View where
  scope : String := ""
  params : List String := []
deriving DecidableEq, Repr

namespace View

/-- The view from a scope within. -/
def enter (v : View) (name : String) : View := { v with scope := Name.qualify v.scope name }

def withParams {τ : Type} (v : View) (params : List (TemplateParam τ)) : View :=
  { v with params := v.params ++ params.filterMap (·.name) }

end View

/-- The view from within a record, a template or a specialization. -/
def memberView (v : View) : ParsedDecl → Option View
  | .record r => r.name.map v.enter
  | .template t => t.record.name.map fun name => (v.enter name).withParams t.params
  | .specialization s =>
    let name := s.record.name.getD s.template
    some ((v.enter (name ++ "<" ++ TypeExpr.renderArgs s.args ++ ">")).withParams s.params)
  | _ => none

/-! ### Items in order -/

/-- What resolution comes to in the order of a file. -/
inductive Visit where
  /-- The beginning of a scope. -/
  | scope (path : String) (kind : ScopeKind)
  | decl (d : ParsedDecl) (origin : Origin) (view : View)

mutual

/-- An item and all that stands within it. -/
def visit (v : View) : Item → List Visit
  | .namespaceItem (some name) items _ =>
    let inner := v.enter name
    .scope inner.scope .namespaceScope :: visitAll inner items
  | .namespaceItem none items _ => visitAll v items
  | .decl d nested origin =>
    match memberView v d with
    | none => .decl d origin v :: visitAll v nested
    | some inner =>
      let begins := if nested.isEmpty then [] else [Visit.scope inner.scope .record]
      .decl d origin v :: begins ++ visitAll inner nested

def visitAll (v : View) : List Item → List Visit
  | [] => []
  | i :: is => visit v i ++ visitAll v is

end

/-! ### Names -/

/-- What a type name stands for. -/
inductive Meaning where
  | record (kind : RecordKind)
  | enum
  | typedef (target : TypeExpr) (view : View)
  | template (kind : RecordKind) (params : List (TemplateParam TypeExpr)) (view : View)

namespace Meaning

def isTypedef : Meaning → Bool
  | typedef _ _ => true
  | _ => false

def isTemplate : Meaning → Bool
  | template _ _ _ => true
  | _ => false

/-- Whether a meaning fits a name behind the keyword of a record or an enum, if there is one. -/
def fits (kind : Option NamedKind) (m : Meaning) : Bool :=
  match kind, m with
  | none, _ => true
  | some kind, enum => kind = .enum
  | some kind, record _ | some kind, template _ _ _ => kind ≠ .enum
  | some _, typedef _ _ => false

end Meaning

/-- How far the arguments of a specialization are resolved: as written, and with the defaults of the
template. -/
inductive Progress where
  | pending
  | underWay
  | resolved (written filled : List ArgRef)

/-- A specialization of a template. -/
structure Pattern where
  params : List String
  args : List ArgExpr
  view : View
  progress : Progress := .pending

/-- The type names of a file by qualified name, the scopes that are records, the specializations of each
template, and the templates that are known from their specializations alone. -/
structure Registry where
  meanings : NameMap (List Meaning) := .empty
  recordScopes : List String := []
  patterns : NameMap (List Pattern) := .empty
  orphans : List String := []

namespace Registry

/-- Puts a value behind those that a name has. -/
def push {α : Type} (m : NameMap (List α)) (name : String) (value : α) : NameMap (List α) :=
  m.insert name ((m.get? name).getD [] ++ [value])

def addMeaning (r : Registry) (name : String) (m : Meaning) : Registry :=
  { r with meanings := push r.meanings name m }

def addPattern (r : Registry) (template : String) (p : Pattern) : Registry :=
  { r with patterns := push r.patterns template p }

/-- The type name that a declaration declares, with its meaning. -/
def meaningOf (v : View) : ParsedDecl → Option (String × Meaning)
  | .record r => r.name.map (·, .record r.kind)
  | .enum e => e.name.map (·, .enum)
  | .typedef t => some (t.name, .typedef t.ty v)
  | .template t => t.record.name.map (·, .template t.record.kind t.params v)
  | _ => none

/-- Registers the type name of a declaration in front of others, and the scope within it. -/
def precede (r : Registry) (v : View) (d : ParsedDecl) : Registry :=
  let meanings := match meaningOf v d with
    | some (name, m) =>
      let name := Name.qualify v.scope name
      r.meanings.insert name (m :: (r.meanings.get? name).getD [])
    | none => r.meanings
  let recordScopes := match memberView v d with
    | some inner => inner.scope :: r.recordScopes
    | none => r.recordScopes
  { r with meanings, recordScopes }

/-- The type names of some declarations. Under each name they stand in the order of the declarations. -/
def ofNames : List Visit → Registry
  | [] => {}
  | .decl d _ v :: rest => (ofNames rest).precede v d
  | .scope _ _ :: rest => ofNames rest

/-- The primary template with a name, as seen from a scope. -/
def primary? (r : Registry) (template scope : String) : Option String :=
  ((Name.enclosing scope).map (Name.qualify · template)).find? fun name =>
    ((r.meanings.get? name).getD []).any Meaning.isTemplate

/-- Registers a specialization with its primary template. A template that is nowhere declared is taken
to stand in the scope of its first specialization. -/
def addSpecialization (r : Registry) (v : View)
    (s : SpecializationDecl TypeExpr ArgExpr PathExpr) : Registry :=
  let inner := v.withParams s.params
  let pattern : Pattern := ⟨s.params.filterMap (·.name), s.args, inner, .pending⟩
  match r.primary? s.template v.scope with
  | some name => r.addPattern name pattern
  | none =>
    let name := Name.qualify v.scope s.template
    let r := r.addMeaning name (.template s.record.kind [] inner)
    { r with orphans := name :: r.orphans }.addPattern name pattern

def addSpecializations (r : Registry) : List Visit → Registry
  | [] => r
  | .decl (.specialization s) _ v :: rest => (r.addSpecialization v s).addSpecializations rest
  | _ :: rest => r.addSpecializations rest

/-- Registers all type names, and then the specializations. -/
def ofVisits (vs : List Visit) : Registry := (ofNames vs).addSpecializations vs

/-- The meaning of a qualified name. While a typedef is being resolved, its name stands for anything else
that bears it, if there is something. -/
def find? (r : Registry) (resolving : List String) (kind : Option NamedKind) (name : String) :
    Option Meaning :=
  let ms := (r.meanings.get? name).getD []
  ms.find? (fun m => m.fits kind && !(resolving.contains name && m.isTypedef)) <|>
    ms.find? (·.fits kind)

end Registry

end HeaderDecl.Resolution
