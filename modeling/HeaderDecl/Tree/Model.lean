import HeaderDecl.Model.Basic
import HeaderDecl.Tree.Decl

/-!
The declarations of a model as trees, scope by scope.
-/

namespace HeaderDecl

namespace TypeRef

/-- A list of template arguments in angle brackets. -/
def renderArgList (args : List ArgRef) : String := "<" ++ renderArgs args ++ ">"

/-- A type with the specialization that applies to it. -/
def renderSelected (t : TypeRef) : String :=
  match t.unqualified with
  | .instantiation ⟨_, _, some args⟩ => t.render ++ " (specialization " ++ renderArgList args ++ ")"
  | _ => t.render

/-- What a typedef stands for. Behind another typedef, the type at the end of the chain is written
too. -/
def renderTarget (t : TypeRef) : String :=
  match t.unqualified with
  | .typedef _ _ => t.renderSelected ++ " (terminal " ++ t.terminal.render ++ ")"
  | _ => t.renderSelected

mutual

/-- The parts of a type that is defined in place, and the word for it. -/
def inPlace : TypeRef → Option (String × List Tree)
  | .anonymousRecord r => some (r.kind.render, recordParts r)
  | .anonymousEnum e => some ("enum", Tree.enumerators e.members)
  | _ => none

/-- The bases, fields and methods of a record. -/
def recordParts : ResolvedRecord → List Tree
  | ⟨_, _, fields, methods, bases, _, _⟩ =>
    bases.map (Tree.base id) ++ fieldTrees fields ++ methods.map (Tree.function renderSelected)

def fieldTrees : List (Field TypeRef) → List Tree
  | [] => []
  | ⟨name, ty, bitWidth, access, ordinal, isStatic⟩ :: rest =>
    Tree.field renderSelected (inPlace ty) ⟨name, ty, bitWidth, access, ordinal, isStatic⟩ ::
      fieldTrees rest

end

def wording : Tree.Wording TypeRef ArgRef String := ⟨renderSelected, renderTarget, renderArg, id⟩

end TypeRef

def Entry.toTree (e : Entry) : Tree := Tree.decl TypeRef.wording TypeRef.recordParts e.decl

/-- The declarations of a scope. Those of the global scope stand at the top. -/
def Scope.toTrees (s : Scope) : List Tree :=
  let ts := s.entries.map Entry.toTree
  match s.kind with
  | .global => ts
  | kind => if ts.isEmpty then [] else [.node (kind.render ++ " " ++ s.path) ts]

/-- The text of a model. -/
def Model.render (m : Model) : String := Tree.renderAll (m.scopes.flatMap Scope.toTrees)

end HeaderDecl
