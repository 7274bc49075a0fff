/-!
The settings of an extraction.
-/

namespace HeaderDecl

/-- The settings of an extraction. A platform flag that is set is a macro with the value `1`, and one
that is not starts undefined. Stripped macros vanish from the text with their arguments. -/
structure Config where
  platformFlags : List (String × Bool) := []
  strippedMacros : List String := []
  maxTypedefDepth : Nat := 32
  maxIncludeDepth : Nat := 64
  workers : Option Nat := none
deriving DecidableEq, Repr

namespace Config

/-- Puts a name into a sorted list, once. -/
def insertName (name : String) : List String → List String
  | [] => [name]
  | n :: ns => if name < n then name :: n :: ns else if name = n then n :: ns else n :: insertName name ns

/-- Sets a platform flag, in place of what it was set to before. -/
def withFlag (c : Config) (name : String) (enabled : Bool) : Config :=
  { c with platformFlags := c.platformFlags.filter (·.1 ≠ name) ++ [(name, enabled)] }

def withStrippedMacro (c : Config) (name : String) : Config :=
  { c with strippedMacros := insertName name c.strippedMacros }

def withMaxTypedefDepth (c : Config) (depth : Nat) : Config := { c with maxTypedefDepth := depth }

def withWorkers (c : Config) (workers : Nat) : Config := { c with workers := some workers }

def isStripped (c : Config) (name : String) : Bool := c.strippedMacros.contains name

/-- The flags that start as macros. -/
def enabledFlags (c : Config) : List String :=
  (c.platformFlags.filter (·.2)).map (·.1)

end Config

end HeaderDecl
