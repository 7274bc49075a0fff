/-!
Double-precision numbers as exact integers: `± mantissa · 2 ^ exponent`, rounded to nearest with ties
to the even mantissa.
-/

namespace HeaderDecl

/-- A double-precision number. A finite one stands for `± mantissa · 2 ^ exponent`; the mantissa is
below `2 ^ 53`, and at least `2 ^ 52` unless the exponent is the least one, `-1074`. -/
inductive Binary64 where
  | nan
  | infinite (negative : Bool)
  | finite (negative : Bool) (mantissa : Nat) (exponent : Int)
deriving DecidableEq, Repr

namespace Binary64

/-- The least mantissa of a number that has all its 53 bits. -/
def leastNormal : Nat := Nat.pow 2 52

def leastExponent : Int := -1074

def greatestExponent : Int := 971

def zero : Binary64 := .finite false 0 leastExponent

def neg : Binary64 → Binary64
  | .nan => .nan
  | .infinite s => .infinite !s
  | .finite s m e => .finite (!s) m e

/-- The same number with the sign of a zero dropped. -/
def unsignedZero : Binary64 → Binary64
  | .finite true 0 e => .finite false 0 e
  | x => x

/-- `num / den` rounded to an integer, a half going to the even neighbour. -/
def roundDiv (num den : Nat) : Nat :=
  let d := num / den
  let r := num % den
  if den < 2 * r || (2 * r == den && d % 2 == 1) then d + 1 else d

/-- The factors by which numerator and denominator grow when a quotient is divided by `base ^ e`. -/
def scale (base : Nat) (e : Int) : Nat × Nat :=
  (Nat.pow base (-e).toNat, Nat.pow base e.toNat)

/-- The exponent that gives `num / den` a mantissa of 53 bits, or the least exponent if that is
greater. -/
def exponentOf (num den : Nat) : Int :=
  let e : Int := (Nat.log2 num : Int) - Nat.log2 den - 52
  let (f, g) := scale 2 e
  max leastExponent (if num * f < leastNormal * (den * g) then e - 1 else e)

/-- The double nearest to `± num / den`. -/
def ofRatio (negative : Bool) (num den : Nat) : Binary64 :=
  if num = 0 then .finite negative 0 leastExponent
  else
    let e := exponentOf num den
    let (f, g) := scale 2 e
    let m := roundDiv (num * f) (den * g)
    -- Rounding may carry into one bit more.
    let (m, e) := if m = 2 * leastNormal then (leastNormal, e + 1) else (m, e)
    if greatestExponent < e then .infinite negative else .finite negative m e

/-- The number of decimal digits of `n`, none for zero. -/
def digitCount (n : Nat) : Nat :=
  if n = 0 then 0 else (Nat.toDigits 10 n).length

/-- The double nearest to `± digits · 10 ^ exponent`. Magnitudes from `10 ^ 309` on are infinite and
those below `10 ^ (-324)` zero, whatever the digits. -/
def ofDecimal (negative : Bool) (digits : Nat) (exponent : Int) : Binary64 :=
  let top := (digitCount digits : Int) + exponent
  if digits = 0 || top ≤ -324 then .finite negative 0 leastExponent
  else if 309 < top then .infinite negative
  else
    let (f, g) := scale 10 (-exponent)
    ofRatio negative (digits * f) g

end Binary64

end HeaderDecl
