import HeaderDecl.Number.Decimal
import HeaderDecl.Text.Quoted

/-!
Values in declarations: those of constants, and sizes and enumerators that may stay expressions.
-/

namespace HeaderDecl

/-- An integer, or the text of an expression that was not evaluated. -/
inductive Value where
  | int (n : Int64)
  | expr (text : String)
deriving DecidableEq, Repr

def Value.render : Value → String
  | .int n => n.toInt.repr
  | .expr text => text

/-- The value of a constant. -/
inductive ConstValue where
  | int (n : Int64)
  | float (x : Binary64)
  | str (s : String)
deriving DecidableEq, Repr

def ConstValue.render : ConstValue → String
  | .int n => n.toInt.repr
  | .float x => x.toText
  | .str s => Text.quote s

end HeaderDecl
