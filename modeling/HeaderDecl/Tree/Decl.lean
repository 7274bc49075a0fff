import HeaderDecl.Decl.Basic
import HeaderDecl.Tree.Basic

/-!
Declarations as trees, for types of any kind that have a text.
-/

namespace HeaderDecl.Tree

/-- How types, template arguments and names of bases are written. What a typedef stands for may be
written in more detail. -/
structure Wording (τ α ν : Type) where
  type : τ → String
  typedefTarget : τ → String
  arg : α → String
  name : ν → String

variable {τ α ν : Type}

def nameOr (name : Option String) : String := name.getD "<anonymous>"

/-- Some text if a condition holds. -/
def mark (on : Bool) (text : String) : String := if on then text else ""

/-- The flags that are set, in brackets. Public access is not written. -/
def flags (set : List (Bool × String)) (access : Access) : String :=
  let words := (set.filter (·.1)).map (·.2) ++ if access = .pub then [] else [access.render]
  if words.isEmpty then "" else " [" ++ ", ".intercalate words ++ "]"

def templateParam (type : τ → String) (p : TemplateParam τ) : String :=
  let pack := mark p.pack "..."
  let name := (p.name.map (" " ++ ·)).getD ""
  let default (text : Option String) := (text.map (" = " ++ ·)).getD ""
  match p.kind with
  | .type d => "typename" ++ pack ++ name ++ default (d.map type)
  | .nonType ty d => type ty ++ pack ++ name ++ default d
  | .template d => "template class" ++ pack ++ name ++ default d

def templateParams (type : τ → String) (ps : List (TemplateParam τ)) : String :=
  "<" ++ ", ".intercalate (ps.map (templateParam type)) ++ ">"

/-! ### Functions -/

def functionWord : FunctionKind → String
  | .free => "function"
  | .method => "method"
  | .constructor => "constructor"
  | .destructor => "destructor"
  | .operator => "operator"
  | .conversion => "conversion"

def parameter (type : τ → String) (p : Parameter τ) : String :=
  (p.name.map (· ++ ": ")).getD "" ++ type p.ty ++ mark p.hasDefault " = ..."

def functionFlags (q : FunctionQualifiers) : List (Bool × String) :=
  [(q.isVirtual, "virtual"), (q.isPure, "pure"), (q.isConst, "const"), (q.isStatic, "static"),
    (q.isInline, "inline"), (q.isExtern, "extern"), (q.isExplicit, "explicit")]

def function (type : τ → String) (f : FunctionDecl τ) : Tree :=
  let template :=
    mark (!f.templateParams.isEmpty) ("template " ++ templateParams type f.templateParams ++ " ")
  let params := f.signature.params.map (parameter type) ++ if f.signature.variadic then ["..."] else []
  leaf (template ++ functionWord f.kind ++ " " ++ f.name ++ "(" ++ ", ".intercalate params ++ ") -> " ++
    type f.signature.returnTy ++ flags (functionFlags f.qualifiers) f.access)

/-! ### Records and enums -/

def recordHeader (r : RecordDecl τ ν) : String :=
  r.kind.render ++ " " ++ nameOr r.name ++ mark r.typedefName " (typedef)" ++
    mark (!r.complete) " (incomplete)"

def base (name : ν → String) (b : BaseSpec ν) : Tree :=
  leaf ("base " ++ b.access.render ++ mark b.isVirtual " virtual" ++ " " ++ name b.name)

/-- A field. A type that is defined in place has the word for it and the parts that stand below. -/
def field (type : τ → String) (inPlace : Option (String × List Tree)) (f : Field τ) : Tree :=
  let (word, parts) := inPlace.getD (type f.ty, [])
  let width := (f.bitWidth.map fun w => " : " ++ w.render).getD ""
  .node ("field " ++ nameOr f.name ++ ": " ++ word ++ width ++ flags [(f.isStatic, "static")] f.access)
    parts

def enumerators (ms : List Enumerator) : List Tree :=
  ms.map fun m => leaf (m.name ++ (m.value.map fun v => " = " ++ v.render).getD "")

def enum (type : τ → String) (e : EnumDecl τ) : Tree :=
  .node ("enum " ++ mark e.isScoped "class " ++ nameOr e.name ++ " : " ++ type e.underlying ++
    mark e.typedefName " (typedef)" ++ mark (!e.complete) " (incomplete)") (enumerators e.members)

/-! ### Declarations -/

/-- A declaration, with the parts of its record below it. -/
def decl (w : Wording τ α ν) (parts : RecordDecl τ ν → List Tree) : Decl τ α ν → Tree
  | .record r => .node (recordHeader r) (parts r)
  | .enum e => enum w.type e
  | .typedef t => leaf ("typedef " ++ t.name ++ " = " ++ w.typedefTarget t.ty)
  | .function f => function w.type f
  | .var v =>
    leaf ("variable " ++ v.name ++ ": " ++ w.type v.ty ++
      flags [(v.isExtern, "extern"), (v.isStatic, "static")] .pub)
  | .constant c => leaf ("constant " ++ c.name ++ " = " ++ c.value.render)
  | .template t =>
    .node ("template " ++ templateParams w.type t.params ++ " " ++ recordHeader t.record) (parts t.record)
  | .specialization s =>
    let params := mark (!s.params.isEmpty) (templateParams w.type s.params ++ " ")
    .node ("specialization " ++ params ++ s.template ++ "<" ++ ", ".intercalate (s.args.map w.arg) ++
      ">" ++ mark (!s.record.complete) " (incomplete)" ++ mark s.orphaned " (orphaned)")
      (parts s.record)

end HeaderDecl.Tree
