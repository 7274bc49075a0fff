import HeaderDecl.Number.Decimal

/-!
The values of literals. Integers have 64 bits and wrap; they may have a prefix for the radix, digit
separators and a suffix. The escape sequences of a string are kept as written.
-/

namespace HeaderDecl.Literal

/-- Drops the characters at the end that satisfy `p`. -/
def trimEnd (p : Char → Bool) (cs : List Char) : List Char :=
  (cs.reverse.dropWhile p).reverse

def isIntSuffix (c : Char) : Bool :=
  c == 'u' || c == 'U' || c == 'l' || c == 'L' || c == 'z' || c == 'Z'

def isFloatSuffix (c : Char) : Bool :=
  c == 'f' || c == 'F' || c == 'l' || c == 'L'

/-- The value of a letter or digit, counting on from ten through the alphabet. -/
def letterValue (c : Char) : Option Nat :=
  if c.isDigit then some (c.toNat - '0'.toNat)
  else if c.isLower then some (c.toNat - 'a'.toNat + 10)
  else if c.isUpper then some (c.toNat - 'A'.toNat + 10)
  else none

/-- The value of a digit in some radix. -/
def digitValue (radix : Nat) (c : Char) : Option Nat :=
  (letterValue c).filter (· < radix)

/-- The number that digits stand for after what has been read so far. -/
def readDigits (radix : Nat) : Nat → List Char → Option Nat
  | n, [] => some n
  | n, c :: cs => (digitValue radix c).bind fun d => readDigits radix (radix * n + d) cs

/-- A number of at most 64 bits, with at least one digit and perhaps a plus sign. -/
def readNat (radix : Nat) (cs : List Char) : Option Nat :=
  let digits := match cs with
    | '+' :: ds => ds
    | ds => ds
  if digits.isEmpty then none else (readDigits radix 0 digits).filter (· < UInt64.size)

/-- The radix of a number and the digits after its prefix. -/
def radixOf : List Char → Nat × List Char
  | '0' :: 'x' :: cs => (16, cs)
  | '0' :: 'X' :: cs => (16, cs)
  | '0' :: 'b' :: cs => (2, cs)
  | '0' :: 'B' :: cs => (2, cs)
  | '0' :: c :: cs => (8, c :: cs)
  | cs => (10, cs)

/-- The value of an integer literal. One beyond the signed range wraps. -/
def int? (text : String) : Option Int64 :=
  let (radix, digits) := radixOf ((trimEnd isIntSuffix text.toList).filter (· ≠ '\''))
  (readNat radix digits).map Int64.ofNat

/-- The value of a floating literal in decimal. -/
def float? (text : String) : Option Binary64 :=
  match text.toList with
  | '0' :: 'x' :: _ => none
  | '0' :: 'X' :: _ => none
  | cs => Binary64.ofText? (String.ofList (trimEnd isFloatSuffix cs))

/-- What follows the first `quote`, if there is one. -/
def afterQuote (quote : Char) (cs : List Char) : Option (List Char) :=
  match cs.dropWhile (· ≠ quote) with
  | [] => none
  | _ :: r => some r

/-- What a string literal has between its quotes. -/
def string (text : String) : String :=
  String.ofList ((afterQuote '"' text.toList).getD text.toList).dropLast

/-- The character that an escape sequence of one letter stands for. -/
def unescape : Char → Char
  | 'n' => '\n'
  | 't' => '\t'
  | 'r' => '\r'
  | '0' => '\x00'
  | c => c

/-- The value of a character literal: the code point of its first character or escape. The closing
quote is one byte wide. -/
def char? (text : String) : Option Int64 := do
  let r ← afterQuote '\'' text.toList
  let last ← r.getLast?
  if last.utf8Size ≠ 1 then none
  let c ← match r.dropLast with
    | '\\' :: c :: _ => some (unescape c)
    | '\\' :: [] => none
    | c :: _ => some c
    | [] => none
  some (Int64.ofNat c.toNat)

end HeaderDecl.Literal
