import HeaderDecl.Decl.Name
import HeaderDecl.Decl.Value
import HeaderDecl.Source.Location

/-!
Declarations, over what stands for types, template arguments and the names of base classes. As parsed
these are syntax; as resolved they refer to other declarations.
-/

namespace HeaderDecl

inductive Primitive where
  | void | bool | char | signedChar | unsignedChar | short | unsignedShort | int | unsignedInt
  | long | unsignedLong | longLong | unsignedLongLong | float | double | longDouble
deriving DecidableEq, Repr

namespace Primitive

def render : Primitive → String
  | void => "void"
  | bool => "bool"
  | char => "char"
  | signedChar => "signed char"
  | unsignedChar => "unsigned char"
  | short => "short"
  | unsignedShort => "unsigned short"
  | int => "int"
  | unsignedInt => "unsigned int"
  | long => "long"
  | unsignedLong => "unsigned long"
  | longLong => "long long"
  | unsignedLongLong => "unsigned long long"
  | float => "float"
  | double => "double"
  | longDouble => "long double"

end Primitive

structure Qualifiers where
  isConst : Bool := false
  isVolatile : Bool := false
deriving DecidableEq, Repr

namespace Qualifiers

def isEmpty (q : Qualifiers) : Bool := !q.isConst && !q.isVolatile

def union (q r : Qualifiers) : Qualifiers := ⟨q.isConst || r.isConst, q.isVolatile || r.isVolatile⟩

/-- The qualifiers as they stand before a type. -/
def render (q : Qualifiers) : String :=
  (if q.isConst then "const " else "") ++ (if q.isVolatile then "volatile " else "")

end Qualifiers

inductive Access where
  | pub | prot | priv
deriving DecidableEq, Repr

def Access.render : Access → String
  | pub => "public"
  | prot => "protected"
  | priv => "private"

inductive RecordKind where
  | struct | klass | union
deriving DecidableEq, Repr

/-- The kinds of types that bear names. -/
inductive NamedKind where
  | struct | klass | union | enum
deriving DecidableEq, Repr

namespace RecordKind

/-- The access of members before any label. -/
def defaultAccess : RecordKind → Access
  | klass => .priv
  | struct | union => .pub

def render : RecordKind → String
  | struct => "struct"
  | klass => "class"
  | union => "union"

def toNamed : RecordKind → NamedKind
  | struct => .struct
  | klass => .klass
  | union => .union

end RecordKind

namespace NamedKind

def render : NamedKind → String
  | struct => "struct"
  | klass => "class"
  | union => "union"
  | enum => "enum"

/-- The kind of record, if it is one. -/
def toRecord? : NamedKind → Option RecordKind
  | struct => some .struct
  | klass => some .klass
  | union => some .union
  | enum => none

end NamedKind

inductive FunctionKind where
  | free | method | constructor | destructor | operator | conversion
deriving DecidableEq, Repr

def FunctionKind.render : FunctionKind → String
  | free => "free"
  | method => "method"
  | constructor => "constructor"
  | destructor => "destructor"
  | operator => "operator"
  | conversion => "conversion"

structure FunctionQualifiers where
  isVirtual : Bool := false
  isPure : Bool := false
  isConst : Bool := false
  isStatic : Bool := false
  isInline : Bool := false
  isExtern : Bool := false
  isExplicit : Bool := false
deriving DecidableEq, Repr

/-! The parameter `τ` stands for types, `α` for template arguments and `ν` for names of bases. -/

/-- A data member. The ordinal is its place in the layout of the record. -/
structure Field (τ : Type) where
  name : Option String
  ty : τ
  bitWidth : Option Value
  access : Access
  ordinal : Nat
  isStatic : Bool
deriving DecidableEq, Repr

structure Parameter (τ : Type) where
  name : Option String
  ty : τ
  hasDefault : Bool
deriving DecidableEq, Repr

structure Signature (τ : Type) where
  returnTy : τ
  params : List (Parameter τ)
  variadic : Bool
deriving DecidableEq, Repr

/-- What a template parameter stands for, with its default. Defaults that are not types are kept as
text. -/
inductive TemplateParamKind (τ : Type) where
  | type (default : Option τ)
  | nonType (ty : τ) (default : Option String)
  | template (default : Option String)
deriving DecidableEq, Repr

structure TemplateParam (τ : Type) where
  name : Option String
  kind : TemplateParamKind τ
  pack : Bool
deriving DecidableEq, Repr

/-- A function or method. Its scope is the qualified name of what encloses it. -/
structure FunctionDecl (τ : Type) where
  name : String
  kind : FunctionKind
  signature : Signature τ
  qualifiers : FunctionQualifiers
  access : Access
  templateParams : List (TemplateParam τ)
  scope : String
deriving DecidableEq, Repr

structure BaseSpec (ν : Type) where
  name : ν
  access : Access
  isVirtual : Bool
deriving DecidableEq, Repr

/-- A struct, class or union. A forward declaration is incomplete; the name may come from a typedef
around the record. -/
structure RecordDecl (τ ν : Type) where
  name : Option String
  kind : RecordKind
  fields : List (Field τ)
  methods : List (FunctionDecl τ)
  bases : List (BaseSpec ν)
  complete : Bool
  typedefName : Bool
deriving DecidableEq, Repr

structure Enumerator where
  name : String
  value : Option Value
deriving DecidableEq, Repr

structure EnumDecl (τ : Type) where
  name : Option String
  isScoped : Bool
  underlying : τ
  members : List Enumerator
  complete : Bool
  typedefName : Bool
deriving DecidableEq, Repr

structure TypedefDecl (τ : Type) where
  name : String
  ty : τ
deriving DecidableEq, Repr

structure VariableDecl (τ : Type) where
  name : String
  ty : τ
  isExtern : Bool
  isStatic : Bool
deriving DecidableEq, Repr

structure ConstantDecl where
  name : String
  value : ConstValue
deriving DecidableEq, Repr

/-- A primary class template. -/
structure TemplateDecl (τ ν : Type) where
  params : List (TemplateParam τ)
  record : RecordDecl τ ν
deriving DecidableEq, Repr

/-- A specialization of a class template, full if it has no parameters. It is orphaned if its template
is nowhere declared. -/
structure SpecializationDecl (τ α ν : Type) where
  template : String
  params : List (TemplateParam τ)
  args : List α
  record : RecordDecl τ ν
  orphaned : Bool
deriving DecidableEq, Repr

inductive Decl (τ α ν : Type) where
  | record (r : RecordDecl τ ν)
  | enum (e : EnumDecl τ)
  | typedef (t : TypedefDecl τ)
  | function (f : FunctionDecl τ)
  | var (v : VariableDecl τ)
  | constant (c : ConstantDecl)
  | template (t : TemplateDecl τ ν)
  | specialization (s : SpecializationDecl τ α ν)
deriving DecidableEq, Repr

def FunctionDecl.qualifiedName {τ : Type} (f : FunctionDecl τ) : String := Name.qualify f.scope f.name

def RecordDecl.forward {τ ν : Type} (name : String) (kind : RecordKind) : RecordDecl τ ν :=
  ⟨some name, kind, [], [], [], false, false⟩

def SpecializationDecl.isPartial {τ α ν : Type} (s : SpecializationDecl τ α ν) : Bool :=
  !s.params.isEmpty

namespace Decl

variable {τ α ν : Type}

/-- The declared name. Records and enums may have none. -/
def name : Decl τ α ν → Option String
  | record r => r.name
  | enum e => e.name
  | typedef t => some t.name
  | function f => some f.name
  | var v => some v.name
  | constant c => some c.name
  | template t => t.record.name
  | specialization s => s.record.name

def kindName : Decl τ α ν → String
  | record r => r.kind.render
  | enum _ => "enum"
  | typedef _ => "typedef"
  | function _ => "function"
  | var _ => "variable"
  | constant _ => "constant"
  | template _ => "template"
  | specialization _ => "specialization"

end Decl

/-- A template argument: a type, or an expression kept as text. -/
inductive TemplateArg (τ : Type) where
  | type (ty : τ)
  | literal (text : String)
deriving DecidableEq, Repr

/-- Where a declaration was found. -/
abbrev Origin := Location

end HeaderDecl
