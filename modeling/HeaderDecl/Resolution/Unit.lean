import HeaderDecl.Directive.Constant
import HeaderDecl.Resolution.Types

/-!
The declaration model of a file. Every type name has to be that of a declaration, of a template parameter
or of a library type; any other one is a fatal error.
-/

namespace HeaderDecl

namespace Resolution

/-- The diagnostic for a specialization of a template that is nowhere declared. -/
def orphanDiagnostic (template : String) (origin : Origin) : Diagnostic :=
  .atLocation .orphanedSpecialization origin s!"specialization of unknown template `{template}`"

def resolveSpecialization (jump : Jump) (site : Site)
    (s : SpecializationDecl TypeExpr ArgExpr PathExpr) (inner : Site) :
    Resolver (SpecializationDecl TypeRef ArgRef String) := do
  let r := (← Resolver.get).registry
  let scope := site.view.scope
  let template := (r.primary? s.template scope).getD (Name.qualify scope s.template)
  let orphaned := r.orphans.contains template
  if orphaned then Resolver.report (orphanDiagnostic template site.origin)
  let outer := site.withParams s.params
  let params ← resolveTemplateParams jump outer s.params
  let args ← resolveArgs jump outer s.args
  let record ← resolveRecord jump inner s.record
  return ⟨template, params, args, record, orphaned⟩

/-- Resolves a declaration. The members of records are looked up from within. -/
def resolveDecl (jump : Jump) (site : Site) (d : ParsedDecl) : Resolver ResolvedDecl := do
  let within (view : View) : Site := { site with view := (memberView site.view d).getD view }
  match d with
  | .record r => return .record (← resolveRecord jump (within site.view) r)
  | .enum e => return .enum (← resolveEnum jump site e)
  | .typedef t =>
    let name := Name.qualify site.view.scope t.name
    return .typedef ⟨t.name, ← resolveTypedef jump site name t.ty⟩
  | .function f => return .function (← resolveFunction jump site f)
  | .var v => return .var ⟨v.name, ← resolveType jump site v.ty, v.isExtern, v.isStatic⟩
  | .constant c => return .constant c
  | .template t =>
    let outer := site.withParams t.params
    let params ← resolveTemplateParams jump outer t.params
    return .template ⟨params, ← resolveRecord jump (within outer.view) t.record⟩
  | .specialization s =>
    let inner := within (site.view.withParams s.params)
    return .specialization (← resolveSpecialization jump site s inner)

/-- Resolves a declaration into the model, or begins a scope of it. -/
def resolveVisit (jump : Jump) (maxDepth : Nat) : Visit → Resolver Unit
  | .scope path kind => do
    let _ ← Resolver.scope path kind
  | .decl d origin view => do
    -- A scope comes after whatever its first declaration brought about.
    let decl ← resolveDecl jump { maxDepth, origin, view } d
    let scope ← Resolver.scope view.scope .namespaceScope
    Resolver.insert scope ⟨decl, origin⟩

/-- Adds a macro constant to the global scope. -/
def addConstant (c : MacroConstant) : Resolver Unit :=
  Resolver.insert Model.global ⟨.constant ⟨c.name, c.value⟩, c.loc⟩

/-- How many things a name may stand for, together with the parameters they have. -/
def Meaning.weight : Meaning → Nat
  | template _ params _ => params.length + 1
  | _ => 1

/-- The number of typedefs, template parameters and specializations, and of other names. -/
def Registry.weight (r : Registry) : Nat :=
  (r.meanings.pairs.flatMap (·.2)).foldl (fun n m => n + m.weight) 0 +
    (r.patterns.pairs.flatMap (·.2)).length

/-- A bound on the types that are under way at once. A typedef and a specialization are under way once,
and a default that comes again before either of them comes without end, unless names were declared in
the meantime. -/
def Registry.depthBound (r : Registry) : Nat :=
  let n := r.weight + 2
  n * n * n

end Resolution

open Resolution in
/-- Resolves the items of a file into a declaration model, which has the constants of its macros first.
The diagnostics are those reported up to the end or up to a fatal error. -/
def resolve (items : List Item) (constants : List MacroConstant) (config : Config) :
    Except FatalError Model × List Diagnostic :=
  let visits := visitAll {} items
  let registry := Registry.ofVisits visits
  let jump := jumpWithin registry.depthBound
  let work : Resolver Unit := do
    Resolver.each addConstant constants
    Resolver.each (resolveVisit jump config.maxTypedefDepth) visits
  let (result, s) := work { registry }
  (result.map fun _ => s.model, s.diagnostics)

end HeaderDecl
