import HeaderDecl.Resolution.Instantiation

/-!
Types, and the parts of declarations that types stand in. What stands within a type is resolved with it;
what it refers to is reached by a jump.
-/

namespace HeaderDecl.Resolution

def Site.withParams (site : Site) (params : List (TemplateParam TypeExpr)) : Site :=
  { site with view := site.view.withParams params }

/-- A pointer to a type. -/
def pointerTo : TypeRef → TypeRef
  | .function sig => .functionPointer sig
  | t => .pointer t

/-- The name that a base class is known by. -/
def baseName : TypeRef → String
  | .named name _ => name
  | t => t.render

mutual

def resolveType (jump : Jump) (site : Site) : TypeExpr → Resolver TypeRef
  | .primitive p => return .primitive p
  | .path p => resolvePath jump site none p
  | .elaborated kind p => resolvePath jump site (some kind) p
  | .dependent p => return .dependent (TypeExpr.renderPath p)
  | .pointer t => do return pointerTo (← resolveType jump site t)
  | .reference t => do return .reference (← resolveType jump site t)
  | .rvalueReference t => do return .rvalueReference (← resolveType jump site t)
  | .array t size => do return .array (← resolveType jump site t) size
  | .function sig => do return .function (← resolveSignature jump site sig)
  | .qualified q t => do return .withQualifiers q (← resolveType jump site t)
  | .record r => do return .anonymousRecord (← resolveRecord jump site r)
  | .enum e => do return .anonymousEnum (← resolveEnum jump site e)

/-- Resolves a name, which stands behind a keyword if there is a kind. -/
def resolvePath (jump : Jump) (site : Site) (kind : Option NamedKind) : PathExpr → Resolver TypeRef
  | ⟨absolute, scope, ⟨last, args⟩⟩ => do
    match ← look site kind ⟨absolute, scope, ⟨last, args⟩⟩ with
    | .type t => return t
    | .meaning name (.record kind) => return .named name kind.toNamed
    | .meaning name .enum => return .named name .enum
    | .meaning name (.typedef target view) =>
      return .typedef name (← terminalOf jump { site with view } name target)
    | .meaning name (.template kind params view) =>
      match ← resolveArgs? jump site args with
      | some args => return .instantiation (← instantiate jump site name params view args)
      -- Without arguments a template is named, and not instantiated.
      | none => return .named name kind.toNamed

def resolveArgs? (jump : Jump) (site : Site) : Option (List ArgExpr) → Resolver (Option (List ArgRef))
  | none => return none
  | some args => do return some (← resolveArgs jump site args)

def resolveArgs (jump : Jump) (site : Site) : List ArgExpr → Resolver (List ArgRef)
  | [] => return []
  | a :: rest => do
    let a ← resolveArg jump site a
    return a :: (← resolveArgs jump site rest)

def resolveArg (jump : Jump) (site : Site) : ArgExpr → Resolver ArgRef
  | .type t => do return .type (← resolveType jump site t)
  | .literal text => return .literal text

def resolveSignature (jump : Jump) (site : Site) : Signature TypeExpr → Resolver (Signature TypeRef)
  | ⟨returnTy, params, variadic⟩ => do
    let params ← resolveParameters jump site params
    return ⟨← resolveType jump site returnTy, params, variadic⟩

def resolveParameters (jump : Jump) (site : Site) :
    List (Parameter TypeExpr) → Resolver (List (Parameter TypeRef))
  | [] => return []
  | ⟨name, ty, hasDefault⟩ :: rest => do
    let ty ← resolveType jump site ty
    return ⟨name, ty, hasDefault⟩ :: (← resolveParameters jump site rest)

def resolveTemplateParams (jump : Jump) (site : Site) :
    List (TemplateParam TypeExpr) → Resolver (List (TemplateParam TypeRef))
  | [] => return []
  | ⟨name, kind, pack⟩ :: rest => do
    let kind ← resolveParamKind jump site kind
    return ⟨name, kind, pack⟩ :: (← resolveTemplateParams jump site rest)

def resolveParamKind (jump : Jump) (site : Site) :
    TemplateParamKind TypeExpr → Resolver (TemplateParamKind TypeRef)
  | .type none => return .type none
  | .type (some t) => do return .type (some (← resolveType jump site t))
  | .nonType t d => do return .nonType (← resolveType jump site t) d
  | .template d => return .template d

/-- Resolves a function, whose signature may name its template parameters. -/
def resolveFunction (jump : Jump) (site : Site) : FunctionDecl TypeExpr → Resolver (FunctionDecl TypeRef)
  | ⟨name, kind, signature, qualifiers, access, params, _⟩ => do
    let inner := site.withParams params
    let signature ← resolveSignature jump inner signature
    let params ← resolveTemplateParams jump inner params
    return ⟨name, kind, signature, qualifiers, access, params, site.view.scope⟩

def resolveMethods (jump : Jump) (site : Site) :
    List (FunctionDecl TypeExpr) → Resolver (List (FunctionDecl TypeRef))
  | [] => return []
  | f :: rest => do
    let f ← resolveFunction jump site f
    return f :: (← resolveMethods jump site rest)

def resolveFields (jump : Jump) (site : Site) :
    List (Field TypeExpr) → Resolver (List (Field TypeRef))
  | [] => return []
  | ⟨name, ty, bitWidth, access, ordinal, isStatic⟩ :: rest => do
    let ty ← resolveType jump site ty
    return ⟨name, ty, bitWidth, access, ordinal, isStatic⟩ :: (← resolveFields jump site rest)

def resolveBases (jump : Jump) (site : Site) :
    List (BaseSpec PathExpr) → Resolver (List (BaseSpec String))
  | [] => return []
  | ⟨name, access, isVirtual⟩ :: rest => do
    let name ← resolvePath jump site none name
    return ⟨baseName name, access, isVirtual⟩ :: (← resolveBases jump site rest)

/-- Resolves a record, whose members are looked up from the site. -/
def resolveRecord (jump : Jump) (site : Site) : ParsedRecord → Resolver ResolvedRecord
  | ⟨name, kind, fields, methods, bases, complete, typedefName⟩ => do
    let fields ← resolveFields jump site fields
    let methods ← resolveMethods jump site methods
    let bases ← resolveBases jump site bases
    return ⟨name, kind, fields, methods, bases, complete, typedefName⟩

def resolveEnum (jump : Jump) (site : Site) : EnumDecl TypeExpr → Resolver (EnumDecl TypeRef)
  | ⟨name, isScoped, underlying, members, complete, typedefName⟩ => do
    return ⟨name, isScoped, ← resolveType jump site underlying, members, complete, typedefName⟩

end

/-- Resolves a type, with at most the given number of types under way at once. A type beyond that is
taken to be unresolved. -/
def jumpWithin : Nat → Jump
  | 0, site, ty => Resolver.fail site (.unresolvedType ty.render)
  | n + 1, site, ty => resolveType (jumpWithin n) site ty

end HeaderDecl.Resolution
