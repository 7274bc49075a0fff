import HeaderDecl.NameMap
import HeaderDecl.Token.Basic

/-!
Macro definitions and the parameter lists that they are written with.
-/

namespace HeaderDecl

/-- A macro. One without a parameter list is object-like; a variadic one binds the arguments beyond
its parameters to one more name. -/
structure MacroDef where
  params : Option (List String)
  variadic : Option String
  body : List Token
deriving DecidableEq, Repr

namespace MacroDef

/-- An object-like macro with the value `1`. -/
def enabledFlag : MacroDef := ⟨none, none, [.synthetic .number "1"]⟩

def isFunctionLike (m : MacroDef) : Bool := m.params.isSome

/-- The name that `...` binds. -/
def variadicName : String := "__VA_ARGS__"

/-- A parameter list as read: the names, the variadic name, and the tokens after the list. -/
abbrev ParamList := List String × Option String × List Token

/-- Ends a list with its variadic parameter, which is the last one. -/
def closeVariadic (names : List String) (variadic : String) : List Token → Option ParamList
  | t :: ts => if t.is .rparen then some (names, some variadic, ts) else none
  | [] => none

/-- Reads a parameter list after its parenthesis and the names so far. -/
def readParams (names : List String) : List Token → Option ParamList
  | [] => none
  | [t] =>
    if t.is .rparen && names.isEmpty then some (names, none, []) else none
  | t :: u :: ts =>
    if t.is .rparen && names.isEmpty then some (names, none, u :: ts)
    else if t.is .ellipsis then closeVariadic names variadicName (u :: ts)
    else if t.isWord then
      -- The last parameter may itself be variadic, under its own name.
      if u.is .ellipsis then closeVariadic names t.text ts
      else if u.is .rparen then some (names ++ [t.text], none, ts)
      else if u.is .comma then readParams (names ++ [t.text]) ts
      else none
    else none

end MacroDef

/-- The macros in force, by name. -/
abbrev MacroTable := NameMap MacroDef

end HeaderDecl
