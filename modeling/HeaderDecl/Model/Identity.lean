import HeaderDecl.Model.Basic

/-!
When two declarations in a scope declare the same thing, and what becomes of the second one.
-/

namespace HeaderDecl

/-- What makes declarations of one name the same. Functions are told apart by their parameters as
written, and enums without a name are known by their members. -/
inductive Identity where
  | record | enum | typedef | var | constant | template
  | function (params : List String) (isConst : Bool)
  | specialization (args : List String)
  | anonymousEnum (members : List String)
deriving DecidableEq, Repr

namespace Decl

/-- The identity of a declaration. A record without a name has none. -/
def identity : ResolvedDecl → Option Identity
  | .record r => if r.name.isSome then some .record else none
  | .enum e => some (if e.name.isSome then .enum else .anonymousEnum (e.members.map (·.name)))
  | .typedef _ => some .typedef
  | .function f => some (.function (f.signature.params.map fun p => p.ty.render) f.qualifiers.isConst)
  | .var _ => some .var
  | .constant _ => some .constant
  | .template _ => some .template
  | .specialization s => some (.specialization (s.args.map TypeRef.renderArg))

/-- Whether a declaration is a definition, if its kind has forward declarations. -/
def completeness? : ResolvedDecl → Option Bool
  | .record r => some r.complete
  | .enum e => some e.complete
  | .template t => some t.record.complete
  | .specialization s => some s.record.complete
  | .typedef _ | .function _ | .var _ | .constant _ => none

/-! ### What tells declarations apart -/

/-- A function without the names of its parameters. -/
def anonymousParams (f : FunctionDecl TypeRef) : FunctionDecl TypeRef :=
  { f with signature :=
    { f.signature with params := f.signature.params.map fun p => { p with name := none } } }

def normalizedRecord (r : ResolvedRecord) : ResolvedRecord :=
  { r with typedefName := false, methods := r.methods.map anonymousParams }

/-- A declaration without what makes no difference: the names of parameters, the sign of zero, and
whether a typedef gave a record or an enum its name. -/
def normalized : ResolvedDecl → ResolvedDecl
  | .record r => .record (normalizedRecord r)
  | .enum e => .enum { e with typedefName := false }
  | .function f => .function (anonymousParams f)
  | .template t => .template { t with record := normalizedRecord t.record }
  | .specialization s => .specialization { s with record := normalizedRecord s.record }
  | .constant ⟨name, .float x⟩ => .constant ⟨name, .float x.unsignedZero⟩
  | .constant c => .constant c
  | .typedef t => .typedef t
  | .var v => .var v

end Decl

/-- What a further declaration of the same thing does to the first one. -/
inductive Reconciliation where
  | same | replace | conflict
deriving DecidableEq, Repr

/-- Compares a declaration to a further one of the same identity. A forward declaration agrees with
whatever comes before or after it, and a definition takes its place. -/
def reconcile (old new : ResolvedDecl) : Reconciliation :=
  match old.completeness?, new.completeness? with
  | some false, some true => .replace
  | some false, some false | some true, some false => .same
  | _, _ => if old.normalized = new.normalized then .same else .conflict

end HeaderDecl
