import HeaderDecl.Resolution.Basic

/-!
Looking up type names, from the innermost scope outwards.
-/

namespace HeaderDecl.Resolution

/-- Type names of libraries, which need no declaration. -/
def wellKnown : List String := ["size_t", "ssize_t", "ptrdiff_t", "intptr_t", "uintptr_t", "intmax_t",
  "uintmax_t", "int8_t", "int16_t", "int32_t", "int64_t", "uint8_t", "uint16_t", "uint32_t", "uint64_t",
  "wchar_t", "char8_t", "char16_t", "char32_t", "off_t", "time_t", "FILE", "va_list",
  "__builtin_va_list", "nullptr_t", "std::nullptr_t", "std::size_t", "std::ptrdiff_t", "std::string",
  "std::wstring"]

/-- What a name is found to be: a type as it stands, or a name with some meaning. -/
inductive Found where
  | type (t : TypeRef)
  | meaning (name : String) (m : Meaning)

/-- The scopes that a name is looked up in, innermost first. -/
def lookupScopes (v : View) (absolute : Bool) : List String :=
  if absolute then [""] else Name.enclosing v.scope

/-- The first meaning of a name in some scopes. -/
def findIn (r : Registry) (resolving : List String) (kind : Option NamedKind) (name : String) :
    List String → Option (String × Meaning)
  | [] => none
  | scope :: scopes =>
    let qualified := Name.qualify scope name
    match r.find? resolving kind qualified with
    | some m => some (qualified, m)
    | none => findIn r resolving kind name scopes

/-- The forward declaration of a name behind a keyword, with its meaning. -/
def forwardDecl (kind : NamedKind) (name : String) : ResolvedDecl × Meaning :=
  match kind.toRecord? with
  | some kind => (.record (.forward name kind), .record kind)
  | none => (.enum ⟨some name, false, .primitive .int, [], false, false⟩, .enum)

/-- Declares a record or an enum that is named behind its keyword and nowhere else. It stands in the
innermost namespace. -/
def declareImplicitly (site : Site) (kind : NamedKind) (name : String) : Resolver TypeRef := do
  let r := (← Resolver.get).registry
  let scope := (Name.enclosing site.view.scope).find? fun scope => !r.recordScopes.contains scope
  let qualified := Name.qualify (scope.getD "") name
  let (parent, last) := Name.splitScope qualified
  let (decl, meaning) := forwardDecl kind last
  let id ← Resolver.scope parent .namespaceScope
  Resolver.insert id ⟨decl, site.origin⟩
  Resolver.modify fun s => { s with registry := s.registry.addMeaning qualified meaning }
  return .named qualified kind

/-- The type that a name stands for by itself, before any scope is searched: a template parameter, or a
name that depends on template arguments. -/
def ownType? (v : View) (p : PathExpr) : Option TypeRef :=
  if !p.absolute && v.params.contains p.first.name then
    some (if p.isQualified then .dependent (TypeExpr.renderPath p) else .param p.first.name)
  else if p.scope.any (·.args.isSome) then some (.dependent (TypeExpr.renderPath p))
  else none

/-- Looks a name up. Behind a keyword it is declared if nothing else is found. -/
def look (site : Site) (kind : Option NamedKind) (p : PathExpr) : Resolver Found := do
  match ownType? site.view p with
  | some t => return .type t
  | none =>
    let name := p.plainName
    let r := (← Resolver.get).registry
    match findIn r site.resolving kind name (lookupScopes site.view p.absolute) with
    | some (qualified, m) => return .meaning qualified m
    | none =>
      -- Library types are known without a declaration, also behind a keyword.
      if wellKnown.contains name then return .type (.builtin name)
      else match kind with
        | some kind => return .type (← declareImplicitly site kind name)
        | none => Resolver.fail site (.unresolvedType (TypeExpr.renderPath p))

end HeaderDecl.Resolution
