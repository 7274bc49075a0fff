import HeaderDecl.Grammar.Declaration
import HeaderDecl.Proofs.WordLexing

/-!
Types that are built from arithmetic types by pointers, references, arrays and functions, and how a
declaration of a name with such a type is spelled. It is spelled inside out: what a type does last stands
nearest to the name.
-/

namespace HeaderDecl

/-! ### Types -/

/-- An identifier that means nothing by itself wherever it stands in a declaration. -/
structure OrdinaryName extends Identifier where
  plain : text ∉ Grammar.annotationWords ++ Grammar.ignoredSpecifiers
deriving DecidableEq, Repr

mutual

/-- A type built from arithmetic types. The size of an array is an integer that is not negative. -/
inductive PlainType where
  | base (q : Qualifiers) (p : Primitive)
  | pointer (q : Qualifiers) (target : PlainType)
  | reference (target : PlainType)
  | rvalueReference (target : PlainType)
  | array (size : Option (Fin (2 ^ 63))) (element : PlainType)
  | function (result : PlainType) (params : PlainParams) (variadic : Bool)

/-- Parameters, each with a name or without one. -/
inductive PlainParams where
  | nil
  | cons (name : Option OrdinaryName) (type : PlainType) (rest : PlainParams)

end

/-- Whether parameters are a single `void` without a name, which stands for no parameters. -/
def PlainParams.isLoneVoid : PlainParams → Bool
  | .cons none (.base q .void) .nil => q.isEmpty
  | _ => false

mutual

/-- Whether every function that has no `...` has other parameters than a lone `void`. -/
def PlainType.Proper : PlainType → Prop
  | .base _ _ => True
  | .pointer _ t | .reference t | .rvalueReference t | .array _ t => t.Proper
  | .function result params variadic =>
    result.Proper ∧ params.Proper ∧ (variadic = false → params.isLoneVoid = false)

def PlainParams.Proper : PlainParams → Prop
  | .nil => True
  | .cons _ t rest => t.Proper ∧ rest.Proper

end

mutual

/-- The type as the parser represents it. -/
def PlainType.toExpr : PlainType → TypeExpr
  | .base q p => .withQualifiers q (.primitive p)
  | .pointer q t => .withQualifiers q (.pointer t.toExpr)
  | .reference t => .reference t.toExpr
  | .rvalueReference t => .rvalueReference t.toExpr
  | .array size t => .array t.toExpr (size.map fun n => .int (Int64.ofNat n.val))
  | .function result params variadic => .function ⟨result.toExpr, params.toParams, variadic⟩

def PlainParams.toParams : PlainParams → List (Parameter TypeExpr)
  | .nil => []
  | .cons name t rest => ⟨name.map (·.text), t.toExpr, false⟩ :: rest.toParams

end

/-! ### Spellings -/

def Qualifiers.words (q : Qualifiers) : List Word :=
  (if q.isConst then [.kw .const] else []) ++ if q.isVolatile then [.kw .volatile] else []

/-- The keywords that name an arithmetic type. -/
def Primitive.keywords : Primitive → List Keyword
  | void => [.void]
  | bool => [.bool]
  | char => [.char]
  | signedChar => [.signed, .char]
  | unsignedChar => [.unsigned, .char]
  | short => [.short]
  | unsignedShort => [.unsigned, .short]
  | int => [.int]
  | unsignedInt => [.unsigned, .int]
  | long => [.long]
  | unsignedLong => [.unsigned, .long]
  | longLong => [.long, .long]
  | unsignedLongLong => [.unsigned, .long, .long]
  | float => [.float]
  | double => [.double]
  | longDouble => [.long, .double]

/-- A type with qualifiers in front, as it stands before a declarator. -/
def baseWords (q : Qualifiers) (p : Primitive) : List Word := q.words ++ p.keywords.map .kw

/-- A declarator as what is put behind it sees it: in parentheses if it begins with an operator. -/
def enclosed (prefixed : Bool) (declarator : List Word) : List Word :=
  if prefixed then .punct .lparen :: declarator ++ [.punct .rparen] else declarator

def arrayWords (size : Option (Fin (2 ^ 63))) : List Word :=
  .punct .lbracket :: (size.map fun n => Word.number n.val).toList ++ [.punct .rbracket]

/-- A parameter list, with `...` at its end if more may follow. -/
def parameterWords (params : List (List Word)) (variadic : Bool) : List Word :=
  let entries := params ++ if variadic then [[.punct .ellipsis]] else []
  .punct .lparen :: [Word.punct .comma].intercalate entries ++ [.punct .rparen]

mutual

/-- The words of a declaration with a type around a declarator, which may begin with an operator. -/
def PlainType.around (declarator : List Word) (prefixed : Bool) : PlainType → List Word
  | .base q p => baseWords q p ++ declarator
  | .pointer q t => t.around (.punct .star :: q.words ++ declarator) true
  | .reference t => t.around (.punct .amp :: declarator) true
  | .rvalueReference t => t.around (.punct .ampAmp :: declarator) true
  | .array size t => t.around (enclosed prefixed declarator ++ arrayWords size) false
  | .function result params variadic =>
    result.around (enclosed prefixed declarator ++ parameterWords params.words variadic) false

/-- The words of each parameter. -/
def PlainParams.words : PlainParams → List (List Word)
  | .nil => []
  | .cons name t rest => t.around (name.map fun x => Word.name x.toIdentifier).toList false :: rest.words

end

/-- The words of a typedef that gives a type a name. -/
def typedefWords (x : OrdinaryName) (t : PlainType) : List Word :=
  .kw .typedef :: t.around [.name x.toIdentifier] false ++ [.punct .semicolon]

end HeaderDecl
