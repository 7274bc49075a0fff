import HeaderDecl.Condition.Expression
import HeaderDecl.Decl.Value
import HeaderDecl.Macro.Expansion

/-!
Constants that macros define: object-like macros whose body is one literal or an integer expression.
-/

namespace HeaderDecl

/-- An object-like macro with a value. -/
structure MacroConstant where
  name : String
  value : ConstValue
  loc : Location
deriving DecidableEq, Repr

namespace MacroConstant

/-- A body without the parentheses around it, as long as there are any. -/
def stripParens (body : List Token) : List Token :=
  match body with
  | t :: u :: rest =>
    if t.is .lparen && ((u :: rest).getLast?.any (·.is .rparen)) then
      stripParens (u :: rest).dropLast
    else body
  | body => body
termination_by body.length

/-- A literal with an optional sign before it; the flag tells a minus. -/
def signedLiteral : List Token → Option (Bool × Token)
  | [t] => some (false, t)
  | [sign, t] =>
    if sign.is .minus then some (true, t) else if sign.is .plus then some (false, t) else none
  | _ => none

/-- The value of a body that is one literal, perhaps with a sign and in parentheses. -/
def literalValue (body : List Token) : Option ConstValue := do
  let (negative, t) ← signedLiteral (stripParens body)
  match t.kind with
  | .number =>
    -- What reads as an integer is one; every other number is tried as a floating literal.
    match Literal.int? t.text with
    | some n => some (.int (if negative then -n else n))
    | none => (Literal.float? t.text).map fun x => .float (if negative then x.neg else x)
  | .charLiteral => (Literal.char? t.text).map fun n => .int (if negative then -n else n)
  | .string => if negative then none else some (.str (Literal.string t.text))
  | _ => none

/-- Whether a token rules an integer expression out. -/
def isUnusable (t : Token) : Bool := t.kind == .string || t.kind.isError

/-- Whether a token has a value without a further definition. -/
def isClosed (t : Token) : Bool := !t.isWord || t.kind == .kw .trueKw || t.kind == .kw .falseKw

/-- The value of a body that is an integer expression over literals and the macros defined so far. A
name that is left over leaves the expression without a value. -/
def integerValue (s : Macro.Scope) (body : List Token) : Option ConstValue :=
  if body.isEmpty || body.any isUnusable then none
  else match Macro.expand s [] body with
    | .ok expanded =>
      if expanded.all isClosed then (Condition.evaluate expanded).map .int else none
    | .error _ => none

/-- The value of a macro body. -/
def valueOf (s : Macro.Scope) (body : List Token) : Option ConstValue :=
  literalValue body <|> integerValue s body

/-- Records a constant, in the place of an older one of its name. -/
def record (c : MacroConstant) (cs : List MacroConstant) : List MacroConstant :=
  if cs.any (·.name = c.name) then cs.map fun d => if d.name = c.name then c else d
  else cs ++ [c]

end MacroConstant

end HeaderDecl
