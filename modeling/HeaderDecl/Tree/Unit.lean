import HeaderDecl.Decl.TypeExpr
import HeaderDecl.Tree.Decl

/-!
Parsed items as trees, nested as written.
-/

namespace HeaderDecl

namespace TypeExpr

mutual

/-- The parts of a type that is defined in place without a name, and the word for it. -/
def inPlace : TypeExpr → Option (String × List Tree)
  | .record r => if r.name.isNone then some (r.kind.render, recordParts r) else none
  | .enum e => if e.name.isNone then some ("enum", Tree.enumerators e.members) else none
  | _ => none

/-- The bases, fields and methods of a record. -/
def recordParts : ParsedRecord → List Tree
  | ⟨_, _, fields, methods, bases, _, _⟩ =>
    bases.map (Tree.base renderPath) ++ fieldTrees fields ++ methods.map (Tree.function render)

def fieldTrees : List (Field TypeExpr) → List Tree
  | [] => []
  | ⟨name, ty, bitWidth, access, ordinal, isStatic⟩ :: rest =>
    Tree.field render (inPlace ty) ⟨name, ty, bitWidth, access, ordinal, isStatic⟩ :: fieldTrees rest

end

def wording : Tree.Wording TypeExpr ArgExpr PathExpr := ⟨render, render, renderArg, renderPath⟩

end TypeExpr

namespace Item

mutual

def toTree : Item → Tree
  | .decl d nested _ =>
    match Tree.decl TypeExpr.wording TypeExpr.recordParts d with
    | .node label parts => .node label (parts ++ toTrees nested)
  | .namespaceItem name items _ => .node ("namespace " ++ Tree.nameOr name) (toTrees items)

def toTrees : List Item → List Tree
  | [] => []
  | i :: is => i.toTree :: toTrees is

end

/-- The text of the items of a file. -/
def renderAll (items : List Item) : String := Tree.renderAll (toTrees items)

end Item

end HeaderDecl
