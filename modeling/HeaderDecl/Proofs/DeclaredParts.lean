import HeaderDecl.Grammar.Declared

/-!
Which declarators of a declaration are refused and which declare something, and what is declared in front
of the first one that is refused.
-/

namespace HeaderDecl.Grammar

namespace Declared

/-- Nothing is kept of a declaration. -/
def Empty (d : Declared) : Prop := d.items = [] ∧ d.fields = [] ∧ d.methods = []

theorem andThen_of_failure {d e : Declared} (failed : d.failure.isSome) : d.andThen e = d := by
  obtain ⟨f, eq⟩ := Option.isSome_iff_exists.mp failed
  simp [andThen, eq]

theorem items_andThen {d e : Declared} (fine : d.failure = none) :
    (d.andThen e).items = d.items ++ e.items := by
  simp [andThen, fine]

theorem empty_andThen {d e : Declared} (fine : d.failure = none) :
    (d.andThen e).Empty ↔ d.Empty ∧ e.Empty := by
  simp [Empty, andThen, fine, and_assoc, and_left_comm]

end Declared

/-! ### Declarators -/

/-- Whether a name has to stand behind a type to be that of a function. Only constructors do without one
among plain names, and they are members. -/
def DeclName.needsType (isMember : Bool) : DeclName → Bool
  | .plain _ => !isMember
  | .operator _ => true
  | .destructor _ => false
  | .conversion _ => false

def DeclName.isPlain : DeclName → Bool
  | .plain _ => true
  | _ => false

namespace Common

variable {c : Common} {n : Nat} {d : Declarator} {tail : Tail}

/-- Whether a declarator declares a function. -/
def isFunction (c : Common) (d : Declarator) : Bool := !c.specs.isTypedef && d.functionSuffix?.isSome

/-- Whether a declarator is refused: it has no name, or lacks a type, or its name is not one of an
object. A qualified name is never refused. -/
def refuses (c : Common) (d : Declarator) : Bool :=
  !d.qualified && d.name.all fun name =>
    if c.isFunction d then c.base.isNone && name.needsType c.member.isSome
    else c.template.isNone && (c.base.isNone || !name.isPlain)

/-- Whether a declarator declares something. Qualified names and templates of objects do not. -/
def declares (c : Common) (d : Declarator) : Bool :=
  !d.qualified && !c.refuses d && (c.isFunction d || c.template.isNone)

theorem functionHead_isNone (name : DeclName) (ops : List TypeOp) :
    (c.functionHead name ops).isNone = (c.base.isNone && name.needsType c.member.isSome) := by
  cases name <;> cases base : c.base <;> cases member : c.member <;>
    simp [functionHead, DeclName.needsType, base, member]

theorem failure_declareFunction {name : DeclName} {suffix : FunctionSuffix} :
    (c.declareFunction d name suffix tail).failure.isSome =
      (c.base.isNone && name.needsType c.member.isSome) := by
  rw [← functionHead_isNone name d.ops.dropLast, declareFunction]
  cases head : c.functionHead name d.ops.dropLast with
  | none => rfl
  | some _ => cases c.member <;> rfl

theorem empty_declareFunction {name : DeclName} {suffix : FunctionSuffix} :
    (c.declareFunction d name suffix tail).Empty ↔
      (c.base.isNone && name.needsType c.member.isSome) = true := by
  rw [← functionHead_isNone name d.ops.dropLast, declareFunction]
  cases head : c.functionHead name d.ops.dropLast with
  | none => simp [Declared.ofFailure, Declared.Empty]
  | some _ => cases member : c.member <;> simp [Declared.ofItem, Declared.Empty]

theorem failure_declareObject {name : DeclName} :
    (c.declareObject n d name tail).failure.isSome =
      (c.template.isNone && (c.base.isNone || !name.isPlain)) := by
  unfold declareObject
  cases template : c.template <;> cases base : c.base <;> cases name <;>
    simp [Declared.ofFailure, DeclName.isPlain]
  split
  · rfl
  · cases c.member <;> rfl

theorem empty_declareObject {name : DeclName} :
    (c.declareObject n d name tail).Empty ↔
      (c.template.isSome || (c.base.isNone || !name.isPlain)) = true := by
  unfold declareObject
  cases template : c.template <;> cases base : c.base <;> cases name <;>
    simp [Declared.ofFailure, DeclName.isPlain, Declared.Empty]
  split
  · simp [Declared.ofItem]
  · cases c.member <;> simp [Declared.ofItem]

theorem failure_declareOne (n : Nat) (d : Declarator) (tail : Tail) :
    (c.declareOne n d tail).failure.isSome = c.refuses d := by
  unfold declareOne refuses isFunction
  cases d.qualified with
  | true => rfl
  | false =>
    cases d.name with
    | none => rfl
    | some name =>
      cases c.specs.isTypedef <;> cases d.functionSuffix? <;>
        simp [failure_declareFunction, failure_declareObject]

theorem empty_declareOne (n : Nat) (d : Declarator) (tail : Tail) :
    (c.declareOne n d tail).Empty ↔ c.declares d = false := by
  unfold declareOne declares refuses isFunction
  cases d.qualified with
  | true => simp [Declared.Empty]
  | false =>
    cases d.name with
    | none => simp [Declared.ofFailure, Declared.Empty]
    | some name =>
      cases c.specs.isTypedef <;> cases d.functionSuffix? <;> cases template : c.template <;>
        cases base : c.base <;> simp [empty_declareFunction, empty_declareObject, template, base]

/-- Nothing is kept of some declarators if none declares something in front of the first one that is
refused. -/
theorem empty_declareAll {ds : List (Declarator × Tail)} :
    (c.declareAll n ds).Empty ↔
      ∀ x ∈ ds.takeWhile fun x => !c.refuses x.1, c.declares x.1 = false := by
  induction ds generalizing n with
  | nil => simp [declareAll, Declared.Empty]
  | cons x rest ih =>
    obtain ⟨d, tail⟩ := x
    rw [declareAll]
    cases refused : c.refuses d with
    | true =>
      have failed := (c.failure_declareOne n d tail).trans refused
      rw [Declared.andThen_of_failure failed, empty_declareOne]
      simp [declares, refused]
    | false =>
      have fine := (c.failure_declareOne n d tail).trans refused
      have read : (c.declareOne n d tail).failure = none := by simpa using fine
      rw [Declared.empty_andThen read, empty_declareOne, ih]
      simp [refused]

end Common

/-! ### Declarations -/

theorem Defined.name_namedByTypedef (d : Defined) (name : String) :
    (d.namedByTypedef name).name = some name := by
  unfold namedByTypedef
  split <;> rfl

/-- The definition in place, under the name that a typedef gives it. -/
def given (specs : Specifiers) (ds : List (Declarator × Tail)) : Option Defined :=
  specs.defined.map fun d => (typedefAlias specs d ds).elim d d.namedByTypedef

/-- The declarators but for one that only names the definition in front of it. -/
def remaining (specs : Specifiers) (ds : List (Declarator × Tail)) : List (Declarator × Tail) :=
  if specs.defined.any fun d => (typedefAlias specs d ds).isSome then ds.drop 1 else ds

/-- The type that a definition stands for in front of declarators. -/
def Defined.asType (d : Defined) : TypeExpr :=
  d.name.elim d.toType fun name => .elaborated d.kind (.simple name)

/-- What the declarators behind some specifiers have in common. -/
def commonOf (specs : Specifiers) (member : Option MemberContext)
    (template : Option (List (TemplateParam TypeExpr))) (origin : Origin) (scope : List String)
    (ds : List (Declarator × Tail)) : Common where
  specs
  base := (given specs ds).elim specs.ty fun d => some (.withQualifiers specs.qualifiers d.asType)
  member
  template
  origin
  scope

/-- The item that a definition with a name is. -/
def Defined.ownItems (d : Defined) (origin : Origin) : List Item :=
  if d.name.isSome then [.decl (d.toDecl none) d.nested origin] else []

/-- A declaration declares the definition in place, then what its declarators declare. -/
theorem declare_eq (specs : Specifiers) (member : Option MemberContext)
    (template : Option (List (TemplateParam TypeExpr))) (origin : Origin) (scope : List String)
    (ds : List (Declarator × Tail)) :
    declare specs member template origin scope ds =
      Declared.andThen { items := (given specs ds).elim [] fun d => d.ownItems origin }
        ((commonOf specs member template origin scope ds).declareAll
          ((member.map MemberContext.fieldCount).getD 0) (remaining specs ds)) := by
  unfold declare commonOf given remaining
  cases specs.defined with
  | none => simp [Declared.andThen]
  | some defined =>
    cases named : typedefAlias specs defined ds with
    | none => cases name : defined.name <;> simp [Defined.ownItems, Defined.asType, name, named]
    | some given =>
      simp [Defined.ownItems, Defined.asType, Defined.name_namedByTypedef, named]

/-- Declarators do not look at the definition in front of them. -/
theorem Common.declareAll_defined (c : Common) (defined : Option Defined) (n : Nat)
    (ds : List (Declarator × Tail)) :
    Common.declareAll { c with specs := { c.specs with defined } } n ds = c.declareAll n ds := by
  induction ds generalizing n with
  | nil => rfl
  | cons x rest ih =>
    have first : Common.declareOne { c with specs := { c.specs with defined } } n x.1 x.2 =
        c.declareOne n x.1 x.2 := rfl
    rw [Common.declareAll, Common.declareAll, first, ih]

/-- What is nested in a definition that stays without a name makes no difference to what is declared. -/
theorem declare_nameless {specs : Specifiers} {d : Defined} {ds : List (Declarator × Tail)}
    (defined : specs.defined = some d) (nameless : d.name = none)
    (notGiven : typedefAlias specs d ds = none) (member : Option MemberContext)
    (template : Option (List (TemplateParam TypeExpr))) (origin : Origin) (scope : List String)
    (nested : List Item) :
    declare { specs with defined := some { d with nested } } member template origin scope ds =
      declare specs member template origin scope ds := by
  have nameless' : Defined.name { d with nested } = none := nameless
  have notGiven' : typedefAlias { specs with defined := some { d with nested } } { d with nested } ds =
      none := notGiven
  let base := TypeExpr.withQualifiers specs.qualifiers d.toType
  unfold declare
  simp only [defined, notGiven, notGiven', nameless, nameless']
  exact congrArg _ (Common.declareAll_defined ⟨specs, some base, member, template, origin, scope⟩ _ _ _)

/-- Whether a declaration declares something in front of the first declarator that is refused. -/
def DeclaresFirst (specs : Specifiers) (common : Common) (ds : List (Declarator × Tail)) : Prop :=
  (∃ d ∈ given specs ds, d.name.isSome) ∨
    ∃ x ∈ (remaining specs ds).takeWhile fun x => !common.refuses x.1, common.declares x.1

theorem empty_declare {specs : Specifiers} {member : Option MemberContext}
    {template : Option (List (TemplateParam TypeExpr))} {origin : Origin} {scope : List String}
    {ds : List (Declarator × Tail)} :
    (declare specs member template origin scope ds).Empty ↔
      ¬DeclaresFirst specs (commonOf specs member template origin scope ds) ds := by
  rw [declare_eq, Declared.empty_andThen rfl, Common.empty_declareAll, DeclaresFirst]
  cases given specs ds <;> simp [Declared.Empty, Defined.ownItems]

end HeaderDecl.Grammar
