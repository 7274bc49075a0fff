import HeaderDecl.Resolution.Typedef
import HeaderDecl.Template.Matching

/-!
Instantiations of class templates: the arguments with defaults for those left out, and the specialization
that applies to them.
-/

namespace HeaderDecl.Resolution

/-- The default of a template parameter. A pack has none. -/
def defaultArg (jump : Jump) (site : Site) (p : TemplateParam TypeExpr) :
    Resolver (Option ArgRef) :=
  if p.pack then return none
  else match p.kind with
    | .type (some ty) => do return some (.type (← jump site ty))
    | .nonType _ (some text) | .template (some text) => return some (.literal text)
    | _ => return none

/-- Appends defaults for some parameters, up to the first that has none. A default may refer to the
arguments before it. -/
def appendDefaults (jump : Jump) (site : Site) (params : List (TemplateParam TypeExpr)) :
    List (TemplateParam TypeExpr) → List ArgRef → Resolver (List ArgRef)
  | [], args => return args
  | p :: rest, args => do
    match ← defaultArg jump site p with
    | none => return args
    | some a =>
      appendDefaults jump site params rest
        (args ++ [Template.substituteArg (Template.bind params args) a])

/-- The arguments of a template with defaults for those left out. -/
def fillDefaults (jump : Jump) (site : Site) (params : List (TemplateParam TypeExpr)) (view : View)
    (args : List ArgRef) : Resolver (List ArgRef) :=
  appendDefaults jump { site with view := view.withParams params } params (params.drop args.length) args

/-- Resolves template arguments that stand somewhere else. -/
def jumpArgs (jump : Jump) (site : Site) : List ArgExpr → Resolver (List ArgRef)
  | [] => return []
  | .literal text :: rest => do return .literal text :: (← jumpArgs jump site rest)
  | .type ty :: rest => do
    let t ← jump site ty
    return .type t :: (← jumpArgs jump site rest)

def setProgress (template : String) (i : Nat) (progress : Progress) : Resolver Unit :=
  Resolver.modify fun s =>
    let ps := ((s.registry.patterns.get? template).getD []).modify i ({ · with progress })
    { s with registry := { s.registry with patterns := s.registry.patterns.insert template ps } }

/-- Resolves the arguments of a specialization for the first time. -/
def resolvePattern (jump : Jump) (site : Site) (template : String) (i : Nat) (p : Pattern) :
    Resolver (List ArgRef × List ArgRef) := do
  setProgress template i .underWay
  let written ← jumpArgs jump { site with view := p.view } p.args
  let filled ← match (← Resolver.get).registry.find? site.resolving none template with
    | some (.template _ params view) => fillDefaults jump site params view written
    | _ => pure written
  setProgress template i (.resolved written filled)
  return (written, filled)

/-- The arguments of a specialization as written and with defaults. There are none while they are being
resolved. -/
def patternArgs (jump : Jump) (site : Site) (template : String) (i : Nat) :
    Resolver (Option (List String × List ArgRef × List ArgRef)) := do
  match ((← Resolver.get).registry.patterns.get? template).bind (·[i]?) with
  | none => return none
  | some p => match p.progress with
    | .resolved written filled => return some (p.params, written, filled)
    | .underWay => return none
    | .pending =>
      let (written, filled) ← resolvePattern jump site template i p
      return some (p.params, written, filled)

/-- Selects among the specializations from the `i`th on. One without parameters that matches comes before
any other one, and of the others the first that matches. -/
def selectFrom (jump : Jump) (site : Site) (template : String) (actual : List ArgRef) :
    List Nat → Option (List ArgRef) → Resolver (Option (List ArgRef))
  | [], partialMatch => return partialMatch
  | i :: rest, partialMatch => do
    match ← patternArgs jump site template i with
    | none => selectFrom jump site template actual rest partialMatch
    | some (params, written, filled) =>
      let filled := Template.unaliasedArgs filled
      if params.isEmpty then
        -- A full specialization that matches decides, whatever came before.
        if filled = actual then return some written
        else selectFrom jump site template actual rest partialMatch
      else if partialMatch.isNone && Template.applies params filled actual then
        selectFrom jump site template actual rest (some written)
      else selectFrom jump site template actual rest partialMatch

/-- The arguments, as written, of the specialization that applies to some arguments. Typedef names make
no difference to it. -/
def select (jump : Jump) (site : Site) (template : String) (args : List ArgRef) :
    Resolver (Option (List ArgRef)) := do
  let patterns := ((← Resolver.get).registry.patterns.get? template).getD []
  selectFrom jump site template (Template.unaliasedArgs args) (List.range patterns.length) none

/-- A use of a class template with some arguments. -/
def instantiate (jump : Jump) (site : Site) (template : String)
    (params : List (TemplateParam TypeExpr)) (view : View) (args : List ArgRef) :
    Resolver (Instantiation TypeRef) := do
  let args ← fillDefaults jump site params view args
  let selected ← select jump site template args
  return ⟨template, args, selected⟩

end HeaderDecl.Resolution
