/-!
Trees of lines, which are printed with children indented below their parent.
-/

namespace HeaderDecl

inductive Tree where
  | node (label : String) (children : List Tree)

namespace Tree

def leaf (label : String) : Tree := .node label []

def indentWidth : Nat := 2

/-- A line at some level. -/
def line (level : Nat) (label : String) : String :=
  String.ofList (List.replicate (level * indentWidth) ' ') ++ label ++ "\n"

mutual

def renderAt (level : Nat) : Tree → String
  | .node label children => line level label ++ renderAllAt (level + 1) children

def renderAllAt (level : Nat) : List Tree → String
  | [] => ""
  | t :: ts => renderAt level t ++ renderAllAt level ts

end

def renderAll (ts : List Tree) : String := renderAllAt 0 ts

end Tree

end HeaderDecl
