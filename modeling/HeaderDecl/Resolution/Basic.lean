import HeaderDecl.Model.Insert
import HeaderDecl.Resolution.Registry

/-!
Computations that resolve types. They add to a model and to what is known of names, and they may end with
a fatal error.
-/

namespace HeaderDecl

namespace Resolution

/-- What is known at some point of a resolution. The terminals are the types at the ends of typedef
chains, and the lengths are those of the chains. -/
structure State where
  registry : Registry
  model : Model := .empty
  diagnostics : List Diagnostic := []
  terminals : NameMap TypeRef := .empty
  lengths : NameMap Nat := .empty

/-- Where a type is resolved: the declaration that it belongs to, the typedefs that led to it, and the
view from it. -/
structure Site where
  maxDepth : Nat
  origin : Origin
  resolving : List String := []
  view : View

end Resolution

open Resolution in
/-- A computation on the state of a resolution. What was reported before an error stays. -/
def Resolver (α : Type) := State → Except FatalError α × State

namespace Resolver

open Resolution

variable {α β : Type}

protected def pure (a : α) : Resolver α := fun s => (.ok a, s)

protected def bind (x : Resolver α) (f : α → Resolver β) : Resolver β := fun s =>
  match x s with
  | (.ok a, s) => f a s
  | (.error e, s) => (.error e, s)

instance : Monad Resolver where
  pure := Resolver.pure
  bind := Resolver.bind

def get : Resolver State := fun s => (.ok s, s)

def modify (f : State → State) : Resolver Unit := fun s => (.ok (), f s)

/-- A fatal error at the declaration that is being resolved. -/
def fail (site : Site) (cause : FatalCause) : Resolver α := fun s =>
  (.error ⟨site.origin.file, site.origin.position, cause⟩, s)

def report (d : Diagnostic) : Resolver Unit :=
  modify fun s => { s with diagnostics := s.diagnostics ++ [d] }

/-- The place of a scope of the model, which is added if there is none. -/
def scope (path : String) (kind : ScopeKind) : Resolver Nat := fun s =>
  let (model, id) := s.model.scopeOrInsert path kind
  (.ok id, { s with model })

/-- Adds a declaration to the model. -/
def insert (scope : Nat) (e : Entry) : Resolver Unit := fun s =>
  let (model, ds) := s.model.insertReporting scope e
  (.ok (), { s with model, diagnostics := s.diagnostics ++ ds })

/-- Runs a computation for each element in turn. -/
def each (f : α → Resolver Unit) : List α → Resolver Unit
  | [] => pure ()
  | x :: xs => do
    f x
    each f xs

end Resolver

end HeaderDecl
