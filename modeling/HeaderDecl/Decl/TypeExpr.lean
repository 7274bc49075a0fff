import HeaderDecl.Decl.Basic

/-!
Types and declarations as written.
-/

namespace HeaderDecl

/-- A segment of a name, with its template arguments if it has any. -/
structure NameSegment (α : Type) where
  name : String
  args : Option (List α)
deriving DecidableEq, Repr

/-- A name as written. An absolute one begins with `::`, and there is always a last segment. -/
structure NamePath (α : Type) where
  absolute : Bool
  scope : List (NameSegment α)
  last : NameSegment α
deriving DecidableEq, Repr

namespace NamePath

variable {α : Type}

def simple (name : String) : NamePath α := ⟨false, [], ⟨name, none⟩⟩

def segments (p : NamePath α) : List (NameSegment α) := p.scope ++ [p.last]

/-- The first segment. -/
def first (p : NamePath α) : NameSegment α := p.scope.head?.getD p.last

def isQualified (p : NamePath α) : Bool := !p.scope.isEmpty

/-- Whether the name is one identifier and nothing else. -/
def isSimple (p : NamePath α) : Bool := !p.absolute && p.scope.isEmpty && p.last.args.isNone

/-- The name without template arguments. -/
def plainName (p : NamePath α) : String := "::".intercalate (p.segments.map (·.name))

end NamePath

/-- A type as written. -/
inductive TypeExpr where
  | primitive (p : Primitive)
  | path (p : NamePath (TemplateArg TypeExpr))
  | elaborated (kind : NamedKind) (p : NamePath (TemplateArg TypeExpr))
  | dependent (p : NamePath (TemplateArg TypeExpr))
  | pointer (t : TypeExpr)
  | reference (t : TypeExpr)
  | rvalueReference (t : TypeExpr)
  | array (t : TypeExpr) (size : Option Value)
  | function (sig : Signature TypeExpr)
  | qualified (q : Qualifiers) (t : TypeExpr)
  | record (r : RecordDecl TypeExpr (NamePath (TemplateArg TypeExpr)))
  | enum (e : EnumDecl TypeExpr)

abbrev ArgExpr := TemplateArg TypeExpr
abbrev PathExpr := NamePath ArgExpr

/-! ### Declarations as parsed -/

abbrev ParsedRecord := RecordDecl TypeExpr PathExpr
abbrev ParsedDecl := Decl TypeExpr ArgExpr PathExpr

/-- A parsed item: a declaration with what is declared within it, or a namespace. Namespaces without a
name of their own belong to the scope around them. -/
inductive Item where
  | decl (d : ParsedDecl) (nested : List Item) (origin : Origin)
  | namespaceItem (name : Option String) (items : List Item) (origin : Origin)

def Item.origin : Item → Origin
  | decl _ _ o => o
  | namespaceItem _ _ o => o

namespace TypeExpr

/-- A type with qualifiers, if there are any. -/
def withQualifiers (q : Qualifiers) (t : TypeExpr) : TypeExpr := if q.isEmpty then t else .qualified q t

/-- The word before an elaborated name. A class is written as a struct. -/
def elaboratedWord : NamedKind → String
  | .enum => "enum "
  | .union => "union "
  | .struct | .klass => "struct "

mutual

def render : TypeExpr → String
  | .primitive p => p.render
  | .path p => renderPath p
  | .elaborated kind p => elaboratedWord kind ++ renderPath p
  | .dependent p => "typename " ++ renderPath p
  | .pointer t => t.render ++ " *"
  | .reference t => t.render ++ " &"
  | .rvalueReference t => t.render ++ " &&"
  | .array t (some size) => t.render ++ "[" ++ size.render ++ "]"
  | .array t none => t.render ++ "[]"
  -- A variadic signature is written like any other one.
  | .function ⟨returnTy, params, _⟩ => returnTy.render ++ "(" ++ renderParams params ++ ")"
  | .qualified q t => q.render ++ t.render
  | .record r => r.kind.render ++ " \x7b...\x7d"
  | .enum _ => "enum \x7b...\x7d"

def renderPath : PathExpr → String
  | ⟨absolute, scope, ⟨name, args⟩⟩ =>
    (if absolute then "::" else "") ++ renderScope scope ++ name ++ renderBrackets args

/-- Segments with a separator after each. -/
def renderScope : List (NameSegment ArgExpr) → String
  | [] => ""
  | ⟨name, args⟩ :: rest => name ++ renderBrackets args ++ "::" ++ renderScope rest

def renderBrackets : Option (List ArgExpr) → String
  | none => ""
  | some args => "<" ++ renderArgs args ++ ">"

def renderArgs : List ArgExpr → String
  | [] => ""
  | [a] => renderArg a
  | a :: b :: rest => renderArg a ++ ", " ++ renderArgs (b :: rest)

def renderArg : ArgExpr → String
  | .type t => t.render
  | .literal text => text

def renderParams : List (Parameter TypeExpr) → String
  | [] => ""
  | [⟨_, t, _⟩] => t.render
  | ⟨_, t, _⟩ :: p :: rest => t.render ++ ", " ++ renderParams (p :: rest)

end

end TypeExpr

end HeaderDecl
