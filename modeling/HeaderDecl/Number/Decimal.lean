import HeaderDecl.Number.Binary64

/-!
Decimal text of doubles. Writing gives the fewest digits that read back; reading takes an optional
sign, then digits with an optional point and exponent, or a name of infinity or of no number.
-/

namespace HeaderDecl.Binary64

/-! ### Writing -/

/-- The decimal exponent `k` with `10 ^ (k - 1) ≤ num / den < 10 ^ k`. The binary logarithm gives it
up to a few steps. -/
def decimalExponent (num den : Nat) : Int :=
  let guess : Int := ((Nat.log2 num : Int) - Nat.log2 den) * 30103 / 100000 - 1
  let above (k : Int) : Bool :=
    let (f, g) := scale 10 k
    num * f < den * g
  ((List.range 6).map fun (i : Nat) => guess + i).find? above |>.getD guess

/-- The interval of reals that round to a positive double `m · 2 ^ e`, with the double itself. The
three numerators share one denominator; the ends belong to the interval when the mantissa is even. -/
structure RoundingInterval where
  low : Nat
  value : Nat
  high : Nat
  den : Nat
  closed : Bool

def roundingInterval (m : Nat) (e : Int) : RoundingInterval :=
  let (f, g) := scale 2 (2 - e)
  -- Below a power of two the doubles lie twice as close.
  let below := if m = leastNormal && leastExponent < e then 1 else 2
  ⟨(4 * m - below) * f, 4 * m * f, (4 * m + 2) * f, g, m % 2 == 0⟩

/-- The point of the grid `10 ^ t` inside the interval that is nearest to its value, the greater one
of two equally near. -/
def RoundingInterval.onGrid (r : RoundingInterval) (t : Int) : Option Nat :=
  let (f, g) := scale 10 t
  let den := r.den * g
  let inside (d : Nat) : Bool :=
    if r.closed then r.low * f ≤ d * den && d * den ≤ r.high * f
    else r.low * f < d * den && d * den < r.high * f
  let d := r.value * f / den
  match inside d, inside (d + 1) with
  | true, true => if 2 * (r.value * f % den) < den then some d else some (d + 1)
  | true, false => some d
  | false, true => some (d + 1)
  | false, false => none

/-- The fewest digits that read back as `m · 2 ^ e`, and the exponent of the last one. -/
def shortest (m : Nat) (e : Int) : Nat × Int :=
  let r := roundingInterval m e
  let k := decimalExponent r.value r.den
  let grids := (List.range 17).map fun (n : Nat) => k - (n + 1)
  (grids.findSome? fun t => (r.onGrid t).map (·, t)).getD (0, 0)

def zeros (n : Nat) : List Char := List.replicate n '0'

def dropTrailingZeros (cs : List Char) : List Char :=
  (cs.reverse.dropWhile (· == '0')).reverse

def intText (n : Int) : List Char :=
  if n < 0 then '-' :: Nat.toDigits 10 n.natAbs else Nat.toDigits 10 n.natAbs

/-- Lays out `0.digits · 10 ^ point`: positional from `10 ^ (-4)` up to `10 ^ 16`, always with a digit
after the point, and outside of that one digit, the others after a point, and the exponent. -/
def layOut (digits : List Char) (point : Int) : List Char :=
  if 16 < point || point < -3 then
    let mantissa := match digits with
      | d :: [] => [d]
      | d :: ds => d :: '.' :: ds
      | [] => []
    mantissa ++ 'e' :: intText (point - 1)
  else if point ≤ 0 then ['0', '.'] ++ zeros (-point).toNat ++ digits
  else
    let n := point.toNat
    if digits.length ≤ n then digits ++ zeros (n - digits.length) ++ ['.', '0']
    else digits.take n ++ '.' :: digits.drop n

def magnitudeText (m : Nat) (e : Int) : List Char :=
  if m = 0 then ['0', '.', '0']
  else
    let (d, t) := shortest m e
    let cs := Nat.toDigits 10 d
    layOut (dropTrailingZeros cs) (t + cs.length)

def toText : Binary64 → String
  | .nan => "NaN"
  | .infinite s => if s then "-inf" else "inf"
  | .finite s m e =>
    String.ofList (if s then '-' :: magnitudeText m e else magnitudeText m e)

/-! ### Reading -/

/-- The value of a digit string. -/
def digitsValue (cs : List Char) : Nat :=
  cs.foldl (fun n c => 10 * n + (c.toNat - '0'.toNat)) 0

/-- Takes an optional sign off; the flag tells a minus. -/
def takeSign : List Char → Bool × List Char
  | '-' :: cs => (true, cs)
  | '+' :: cs => (false, cs)
  | cs => (false, cs)

/-- The exponent that ends a number: nothing, or a letter `e`, an optional sign and digits. -/
def readExponent : List Char → Option Int
  | [] => some 0
  | c :: cs =>
    let (negative, ds) := takeSign cs
    if (c == 'e' || c == 'E') && !ds.isEmpty && ds.all Char.isDigit then
      let n : Int := digitsValue ds
      some (if negative then -n else n)
    else none

/-- An unsigned number with at least one digit before the exponent. -/
def readMagnitude (negative : Bool) (cs : List Char) : Option Binary64 :=
  let whole := cs.takeWhile Char.isDigit
  let (fraction, rest) := match cs.dropWhile Char.isDigit with
    | '.' :: r => (r.takeWhile Char.isDigit, r.dropWhile Char.isDigit)
    | r => ([], r)
  if whole.isEmpty && fraction.isEmpty then none
  else (readExponent rest).map fun e =>
    ofDecimal negative (digitsValue (whole ++ fraction)) (e - fraction.length)

def ofText? (s : String) : Option Binary64 :=
  let (negative, cs) := takeSign s.toList
  match String.ofList (cs.map Char.toLower) with
  | "inf" | "infinity" => some (.infinite negative)
  | "nan" => some .nan
  | _ => readMagnitude negative cs

example : (ofText? "0.1").map toText = some "0.1" := by decide +kernel
example : (ofText? "-0.0").map toText = some "-0.0" := by decide +kernel
example : (ofText? "1e16").map toText = some "1e16" := by decide +kernel
example : (ofText? "4.9e-324").map toText = some "5e-324" := by decide +kernel

end HeaderDecl.Binary64
