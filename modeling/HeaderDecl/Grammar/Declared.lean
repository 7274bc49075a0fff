import HeaderDecl.Grammar.Parser
import HeaderDecl.Grammar.Parts

/-!
What a declaration declares once its specifiers and declarators have been read.
-/

namespace HeaderDecl.Grammar

/-- The items of a declaration, and its members if it stands in a record. What was declared before a
failure stays. -/
structure Declared where
  items : List Item := []
  fields : List (Field TypeExpr) := []
  methods : List (FunctionDecl TypeExpr) := []
  reports : List Report := []
  failure : Option Failure := none

namespace Declared

def ofFailure (site : Token) (cause : Cause) : Declared := { failure := some { cause, site } }

def ofItem (d : ParsedDecl) (origin : Origin) : Declared := { items := [.decl d [] origin] }

/-- What is declared first, then what is declared unless that failed. -/
def andThen (d : Declared) (e : Declared) : Declared :=
  match d.failure with
  | some _ => d
  | none =>
    { items := d.items ++ e.items
      fields := d.fields ++ e.fields
      methods := d.methods ++ e.methods
      reports := d.reports ++ e.reports
      failure := e.failure }

end Declared

/-- What the declarators of a declaration have in common. -/
structure Common where
  specs : Specifiers
  base : Option TypeExpr
  member : Option MemberContext
  template : Option (List (TemplateParam TypeExpr))
  origin : Origin
  scope : List String

namespace Common

/-- The name, kind and return type of a function, if it may be declared by such a name and type. -/
def functionHead (c : Common) (name : DeclName) (ops : List TypeOp) :
    Option (String × FunctionKind × TypeExpr) :=
  match name, c.base with
  | .plain name, some base =>
    some (name, if c.member.isSome then .method else .free, applyOps base ops)
  | .plain name, none =>
    if c.member.isSome then some (name, .constructor, .primitive .void) else none
  | .destructor name, _ => some ("~" ++ name, .destructor, .primitive .void)
  | .operator name, some base => some (name, .operator, applyOps base ops)
  | .operator _, none => none
  | .conversion target, _ => some ("operator " ++ target.render, .conversion, target)

/-- A function, as a method within a record. -/
def declareFunction (c : Common) (d : Declarator) (name : DeclName) (suffix : FunctionSuffix)
    (tail : Tail) : Declared :=
  match c.functionHead name d.ops.dropLast with
  | none => .ofFailure d.token .expectedType
  | some (name, kind, returnTy) =>
    let f : FunctionDecl TypeExpr := {
      name
      kind
      signature := suffix.toSignature returnTy
      qualifiers := {
        isVirtual := c.specs.isVirtual
        isPure := tail.isPure
        isConst := suffix.isConst
        isStatic := c.specs.isStatic
        isInline := c.specs.isInline
        isExtern := c.specs.isExtern
        isExplicit := c.specs.isExplicit }
      access := (c.member.map MemberContext.access).getD .pub
      templateParams := c.template.getD []
      scope := "::".intercalate c.scope }
    if c.member.isSome then { methods := [f] } else .ofItem (.function f) c.origin

/-- A typedef, or a variable, or a field within a record that has the given number of fields. -/
def declareObject (c : Common) (fieldCount : Nat) (d : Declarator) (name : DeclName) (tail : Tail) :
    Declared :=
  match c.template, c.base, name with
  | some _, _, _ =>
    { reports := [.atToken d.token (.unmodeled "variable template" d.token.text)] }
  | none, none, _ => .ofFailure d.token .expectedType
  | none, some base, .plain name =>
    let ty := applyOps base d.ops
    if c.specs.isTypedef then .ofItem (.typedef ⟨name, ty⟩) c.origin
    else match c.member with
      | some m =>
        { fields := [⟨some name, ty, tail.bitWidth, m.access, fieldCount, c.specs.isStatic⟩] }
      | none => .ofItem (.var ⟨name, ty, c.specs.isExtern, c.specs.isStatic⟩) c.origin
  | none, some _, _ => .ofFailure d.token .expectedName

/-- What one declarator declares. One with a qualified name repeats what its class declares. -/
def declareOne (c : Common) (fieldCount : Nat) (d : Declarator) (tail : Tail) : Declared :=
  if d.qualified then {}
  else match d.name with
    | none => .ofFailure d.token .expectedName
    | some name =>
      match if c.specs.isTypedef then none else d.functionSuffix? with
      | some suffix => c.declareFunction d name suffix tail
      | none => c.declareObject fieldCount d name tail

/-- What declarators declare in turn, up to the first that fails. -/
def declareAll (c : Common) (fieldCount : Nat) : List (Declarator × Tail) → Declared
  | [] => {}
  | (d, tail) :: rest =>
    let first := c.declareOne fieldCount d tail
    first.andThen (c.declareAll (fieldCount + first.fields.length) rest)

end Common

/-- The name that a typedef gives to the definition in front of its first declarator. -/
def typedefAlias (specs : Specifiers) (defined : Defined) (declarators : List (Declarator × Tail)) :
    Option String :=
  match declarators with
  | (d, _) :: _ =>
    if specs.isTypedef && d.ops.isEmpty then
      d.plainName?.filter fun name => defined.name.all (· = name)
    else none
  | [] => none

/-- What specifiers and declarators declare. A definition in place is declared by itself and then named
by the declarators; if a typedef gives it its name, that typedef is not declared on its own. One that
stays without a name is the type of the declarators. -/
def declare (specs : Specifiers) (member : Option MemberContext)
    (template : Option (List (TemplateParam TypeExpr))) (origin : Origin) (scope : List String)
    (declarators : List (Declarator × Tail)) : Declared :=
  let fieldCount := (member.map MemberContext.fieldCount).getD 0
  match specs.defined with
  | none =>
    Common.declareAll ⟨specs, specs.ty, member, template, origin, scope⟩ fieldCount declarators
  | some defined =>
    let given := typedefAlias specs defined declarators
    let defined := match given with
      | some name => defined.namedByTypedef name
      | none => defined
    let declarators := if given.isSome then declarators.drop 1 else declarators
    let (own, ty) := match defined.name with
      | some name =>
        ([Item.decl (defined.toDecl none) defined.nested origin],
          TypeExpr.elaborated defined.kind (.simple name))
      | none => ([], defined.toType)
    let base := TypeExpr.withQualifiers specs.qualifiers ty
    let c : Common := ⟨specs, some base, member, template, origin, scope⟩
    Declared.andThen { items := own } (c.declareAll fieldCount declarators)

/-- What specifiers declare by themselves. A record without a name is an anonymous member of the record
around it. -/
def declareAlone (specs : Specifiers) (member : Option MemberContext)
    (template : Option (List (TemplateParam TypeExpr))) (origin : Origin) : Declared :=
  match specs.defined.or specs.forward with
  | none => {}
  | some defined =>
    match defined.body, defined.name, member with
    | .inl r, none, some m =>
      { items := defined.nested
        fields := [⟨none, .record r, none, m.access, m.fieldCount, false⟩] }
    | _, _, _ => { items := [.decl (defined.toDecl template) defined.nested origin] }

end HeaderDecl.Grammar
