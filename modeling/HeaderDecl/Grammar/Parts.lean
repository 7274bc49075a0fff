import HeaderDecl.Decl.TypeExpr
import HeaderDecl.Token.Basic
import HeaderDecl.Token.Literal

/-!
The parts that a declaration is read in: specifiers, declarators and what follows them.
-/

namespace HeaderDecl.Grammar

/-! ### Words -/

def callingConventions : List String :=
  ["__cdecl", "__stdcall", "__fastcall", "__thiscall", "__vectorcall"]

/-- Specifiers that declare nothing about a declaration. -/
def ignoredSpecifiers : List String :=
  ["_Noreturn", "__forceinline", "thread_local", "_Thread_local", "__thread", "consteval",
    "constinit"] ++ callingConventions

/-- The punctuators that operators are named by. -/
def overloadable : List Punct :=
  [.plus, .minus, .star, .slash, .percent, .caret, .amp, .pipe, .tilde, .bang, .eq, .less, .greater,
    .opAssign, .lessLess, .eqEq, .notEq, .lessEq, .greaterEq, .ampAmp, .pipePipe, .plusPlus,
    .minusMinus, .comma, .arrow]

/-- The arithmetic type that keywords name together, in any order. -/
def primitiveOf (words : List Keyword) : Option Primitive :=
  let has (k : Keyword) : Bool := words.contains k
  let longs := words.count .long
  let sign (unsigned signed : Primitive) : Primitive := if has .unsigned then unsigned else signed
  if words.isEmpty then none
  else if has .void then some .void
  else if has .bool then some .bool
  else if has .float then some .float
  -- The words `long` and `double` may stand apart, so all words are counted first.
  else if has .double then some (if 0 < longs then .longDouble else .double)
  else if has .char then some (sign .unsignedChar (if has .signed then .signedChar else .char))
  else if has .short then some (sign .unsignedShort .short)
  else if 2 ≤ longs then some (sign .unsignedLongLong .longLong)
  else if longs = 1 then some (sign .unsignedLong .long)
  else some (sign .unsignedInt .int)

/-- The value of an integer literal, with an optional sign, and the text of anything else. The least
integer has no negation. -/
def valueOf (ts : List Token) : Value :=
  let n : Option Int64 := match ts with
    | [t] =>
      if t.kind == .number then Literal.int? t.text
      else if t.kind == .charLiteral then Literal.char? t.text
      else none
    | [sign, t] =>
      if t.kind == .number then
        if sign.is .minus then ((Literal.int? t.text).filter (· ≠ Int64.minValue)).map fun n => -n
        else if sign.is .plus then Literal.int? t.text
        else none
      else none
    | _ => none
  match n with
  | some n => .int n
  | none => .expr (spell ts)

/-! ### Specifiers -/

/-- A record or an enum with the name it was written with. Template arguments at the end of that name
make it a specialization. -/
structure Defined where
  body : ParsedRecord ⊕ EnumDecl TypeExpr
  nested : List Item := []
  path : Option PathExpr

namespace Defined

def name (d : Defined) : Option String :=
  match d.body with
  | .inl r => r.name
  | .inr e => e.name

def kind (d : Defined) : NamedKind :=
  match d.body with
  | .inl r => r.kind.toNamed
  | .inr _ => .enum

/-- The definition under a name that a typedef gives it. -/
def namedByTypedef (d : Defined) (name : String) : Defined :=
  match d.body with
  | .inl r => { d with body := .inl { r with name := some name, typedefName := true } }
  | .inr e => { d with body := .inr { e with name := some name, typedefName := true } }

def toType (d : Defined) : TypeExpr :=
  match d.body with
  | .inl r => .record r
  | .inr e => .enum e

/-- The declaration of a definition. One with template arguments in its name is a specialization, and
a record with template parameters a template. -/
def toDecl (d : Defined) (template : Option (List (TemplateParam TypeExpr))) : ParsedDecl :=
  match d.body, d.path.bind fun p => p.last.args with
  | .inl r, some args =>
    .specialization {
      template := (d.path.map NamePath.plainName).getD ""
      params := template.getD []
      args
      record := r
      orphaned := false }
  | .inl r, none =>
    match template with
    | some (p :: ps) => .template ⟨p :: ps, r⟩
    | _ => .record r
  | .inr e, _ => .enum e

end Defined

/-- The specifiers of a declaration. A declaration defines a record or an enum in place, or names one
that it declares if it stands alone. -/
structure Specifiers where
  isTypedef : Bool := false
  isExtern : Bool := false
  isStatic : Bool := false
  isInline : Bool := false
  isVirtual : Bool := false
  isExplicit : Bool := false
  isFriend : Bool := false
  qualifiers : Qualifiers := {}
  primitives : List Keyword := []
  base : Option TypeExpr := none
  defined : Option Defined := none
  forward : Option Defined := none

namespace Specifiers

def hasType (s : Specifiers) : Bool := !s.primitives.isEmpty || s.base.isSome || s.defined.isSome

/-- The type that the specifiers name. A definition in place is not one. -/
def ty (s : Specifiers) : Option TypeExpr :=
  (((primitiveOf s.primitives).map TypeExpr.primitive).or s.base).map (.withQualifiers s.qualifiers)

end Specifiers

/-! ### Declarators -/

inductive DeclName where
  | plain (name : String)
  | destructor (name : String)
  | operator (name : String)
  | conversion (target : TypeExpr)

/-- What follows the name of a function. -/
structure FunctionSuffix where
  params : List (Parameter TypeExpr) := []
  variadic : Bool := false
  isConst : Bool := false
  trailing : Option TypeExpr := none

/-- The signature of a function. A trailing return type takes the place of the other one. -/
def FunctionSuffix.toSignature (s : FunctionSuffix) (returnTy : TypeExpr) : Signature TypeExpr :=
  ⟨s.trailing.getD returnTy, s.params, s.variadic⟩

/-- What a declarator makes of a type. -/
inductive TypeOp where
  | pointer (q : Qualifiers)
  | reference
  | rvalueReference
  | array (size : Option Value)
  | function (suffix : FunctionSuffix)

def TypeOp.apply (t : TypeExpr) : TypeOp → TypeExpr
  | pointer q => .withQualifiers q (.pointer t)
  | reference => .reference t
  | rvalueReference => .rvalueReference t
  | array size => .array t size
  | function suffix => .function (suffix.toSignature t)

/-- Applies the operators of a declarator, the first one innermost. -/
def applyOps (base : TypeExpr) (ops : List TypeOp) : TypeExpr := ops.foldl TypeOp.apply base

/-- A declarator. The token is that of its name, or the one it begins with. -/
structure Declarator where
  name : Option DeclName
  qualified : Bool
  pack : Bool
  token : Token
  ops : List TypeOp

namespace Declarator

/-- The suffix of a declarator that declares a function. -/
def functionSuffix? (d : Declarator) : Option FunctionSuffix :=
  match d.ops.getLast? with
  | some (.function suffix) => some suffix
  | _ => none

/-- The name, if it is one identifier. -/
def plainName? (d : Declarator) : Option String :=
  match d.name with
  | some (.plain name) => if d.qualified then none else some name
  | _ => none

/-- The name of a parameter, whatever scopes stand before it. -/
def paramName? (d : Declarator) : Option String :=
  match d.name with
  | some (.plain name) => some name
  | _ => none

end Declarator

/-- What follows a declarator. -/
structure Tail where
  bitWidth : Option Value := none
  isPure : Bool := false
  hasBody : Bool := false

/-- What surrounds a member: the record's name, the access in force, and the number of fields so far. -/
structure MemberContext where
  record : Option String
  access : Access
  fieldCount : Nat

end HeaderDecl.Grammar
