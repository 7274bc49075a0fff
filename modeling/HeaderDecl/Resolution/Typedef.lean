import HeaderDecl.Resolution.Lookup

/-!
Typedef chains, which have to end within a bound.
-/

namespace HeaderDecl.Resolution

/-- Resolves a type that stands somewhere else than the type that refers to it. -/
abbrev Jump := Site → TypeExpr → Resolver TypeRef

/-- The length of a typedef chain that goes on with a type. -/
def chainLength (lengths : NameMap Nat) (t : TypeRef) : Nat :=
  match t.unqualified with
  | .typedef next _ => ((lengths.get? next).getD 0) + 1
  | _ => 1

/-- Whether a typedef may be resolved behind those that led to it. -/
def Site.mayResolve (site : Site) (name : String) : Bool :=
  site.resolving.length < site.maxDepth && !site.resolving.contains name

/-- The type that a typedef names. A typedef that leads back to itself is an error, and so is one whose
chain is too long. -/
def resolveTypedef (jump : Jump) (site : Site) (name : String) (target : TypeExpr) :
    Resolver TypeRef := do
  if site.mayResolve name then
    let t ← jump { site with resolving := site.resolving ++ [name] } target
    -- A chain is measured again at its end, for it may go through typedefs that were resolved before.
    let length := chainLength (← Resolver.get).lengths t
    if site.maxDepth < length then Resolver.fail site (.cyclicTypedef name site.maxDepth)
    else
      Resolver.modify fun s => { s with lengths := s.lengths.insert name length }
      return t
  else Resolver.fail site (.cyclicTypedef (site.resolving.head?.getD name) site.maxDepth)

/-- The type at the end of the chain of a typedef. -/
def terminalOf (jump : Jump) (site : Site) (name : String) (target : TypeExpr) : Resolver TypeRef := do
  match (← Resolver.get).terminals.get? name with
  | some t => return t
  | none =>
    let t := match ← resolveTypedef jump site name target with
      | .typedef _ t => t
      | t => t
    Resolver.modify fun s => { s with terminals := s.terminals.insert name t }
    return t

end HeaderDecl.Resolution
