import HeaderDecl.Condition.Expression
import Mathlib.Algebra.Ring.Int.Defs

/-!
The grammar of conditional expressions in layers, and the value of an expression from the bottom up.
Arithmetic is that of the integers, brought back to 64 bits after each operation.
-/

namespace HeaderDecl.Condition

/-! ### Expressions -/

inductive UnaryOp where
  | not | complement | minus | plus
deriving DecidableEq, Repr

inductive Expr where
  | literal (n : Int64)
  | unary (op : UnaryOp) (a : Expr)
  | binary (op : BinOp) (a b : Expr)
  | conditional (test a b : Expr)
deriving DecidableEq, Repr

/-- The 64-bit number that differs from an integer by a multiple of `2 ^ 64`. -/
def wrap (n : Int) : Int64 := Int64.ofInt n

def UnaryOp.value (a : Int64) : UnaryOp → Int64
  | not => truth (a.toInt = 0)
  | complement => wrap (-a.toInt - 1)
  | minus => wrap (-a.toInt)
  | plus => a

/-- The places of a shift by some count. A count that is negative or has more than 32 bits is no
count at all. -/
def shiftPlaces (n : Int) : Option Nat := if 0 ≤ n ∧ n < 2 ^ 32 then some (n.toNat % 64) else none

/-- Whether there is a quotient of 64 bits. -/
def HasQuotient (x y : Int) : Prop := y ≠ 0 ∧ ¬(x = -2 ^ 63 ∧ y = -1)

instance (x y : Int) : Decidable (HasQuotient x y) := by unfold HasQuotient; infer_instance

def BinOp.value (a b : Int64) : BinOp → Option Int64
  | or => some (truth (a.toInt ≠ 0 ∨ b.toInt ≠ 0))
  | and => some (truth (a.toInt ≠ 0 ∧ b.toInt ≠ 0))
  | bitOr => some (a ||| b)
  | bitXor => some (a ^^^ b)
  | bitAnd => some (a &&& b)
  | eq => some (truth (a.toInt = b.toInt))
  | ne => some (truth (a.toInt ≠ b.toInt))
  | lt => some (truth (a.toInt < b.toInt))
  | le => some (truth (a.toInt ≤ b.toInt))
  | gt => some (truth (a.toInt > b.toInt))
  | ge => some (truth (a.toInt ≥ b.toInt))
  | shl => (shiftPlaces b.toInt).map fun n => wrap (a.toInt * 2 ^ n)
  | shr => (shiftPlaces b.toInt).map fun n => wrap (a.toInt / 2 ^ n)
  | add => some (wrap (a.toInt + b.toInt))
  | sub => some (wrap (a.toInt - b.toInt))
  | mul => some (wrap (a.toInt * b.toInt))
  | div => if HasQuotient a.toInt b.toInt then some (wrap (a.toInt.tdiv b.toInt)) else none
  | rem => if HasQuotient a.toInt b.toInt then some (wrap (a.toInt.tmod b.toInt)) else none

/-- The value of an expression. It has one only if every part has one, also the branch that is not
taken. -/
def Expr.value : Expr → Option Int64
  | literal n => some n
  | unary op a => a.value.map fun v => op.value v
  | binary op a b => a.value.bind fun v => b.value.bind fun w => op.value v w
  | conditional test a b =>
    test.value.bind fun t => a.value.bind fun v => b.value.map fun w =>
      if t.toInt ≠ 0 then v else w

/-! ### Grammar -/

/-- How tightly an operator binds. The conditional operator has level 0. -/
def BinOp.level : BinOp → Nat
  | or => 1
  | and => 2
  | bitOr => 3
  | bitXor => 4
  | bitAnd => 5
  | eq | ne => 6
  | lt | le | gt | ge => 7
  | shl | shr => 8
  | add | sub => 9
  | mul | div | rem => 10

/-- The level of operands, and of operators that stand before one. -/
def operandLevel : Nat := 11

/-- The punctuator of an operator, if it has one of its own. -/
def BinOp.punct? : BinOp → Option Punct
  | or => some .pipePipe
  | and => some .ampAmp
  | bitOr => some .pipe
  | bitXor => some .caret
  | bitAnd => some .amp
  | eq => some .eqEq
  | ne => some .notEq
  | lt => some .less
  | le => some .lessEq
  | gt => some .greater
  | ge => some .greaterEq
  | shl => some .lessLess
  | shr => none
  | add => some .plus
  | sub => some .minus
  | mul => some .star
  | div => some .slash
  | rem => some .percent

def UnaryOp.punct : UnaryOp → Punct
  | not => .bang
  | complement => .tilde
  | minus => .minus
  | plus => .plus

/-- The tokens of an operator between operands. -/
inductive BinOp.Spelled : BinOp → List Token → Prop
  | punct {op : BinOp} {p : Punct} {t : Token} (own : op.punct? = some p) (is : t.kind = .punct p) :
    Spelled op [t]
  | shiftRight {t u : Token} (first : t.kind = .punct .greater) (second : u.kind = .punct .greater)
    (adjacent : u.span.lo = t.span.hi) : Spelled .shr [t, u]

/-- The numbers that single tokens stand for. -/
inductive Denotes : Token → Int64 → Prop
  | number {t : Token} {n : Int64} (kind : t.kind = .number) (reads : Literal.int? t.text = some n) :
    Denotes t n
  | character {t : Token} {n : Int64} (kind : t.kind = .charLiteral)
    (reads : Literal.char? t.text = some n) : Denotes t n
  | isTrue {t : Token} (kind : t.kind = .kw .trueKw) : Denotes t 1
  | isFalse {t : Token} (kind : t.kind = .kw .falseKw) : Denotes t 0
  | word {t : Token} (word : t.isWord = true) (other : t.kind ≠ .kw .trueKw) : Denotes t 0

/-- The tokens of an expression whose operators are of some level or bind more tightly. Each level is
associative to the left, except for the conditional operator. -/
inductive Derives : Nat → List Token → Expr → Prop
  | literal {t : Token} {n : Int64} (denotes : Denotes t n) : Derives operandLevel [t] (.literal n)
  | group {opening closing : Token} {ts : List Token} {e : Expr}
    (opens : opening.kind = .punct .lparen) (inner : Derives 0 ts e)
    (closes : closing.kind = .punct .rparen) : Derives operandLevel (opening :: ts ++ [closing]) e
  | unary {op : UnaryOp} {t : Token} {ts : List Token} {a : Expr} (is : t.kind = .punct op.punct)
    (operand : Derives operandLevel ts a) : Derives operandLevel (t :: ts) (.unary op a)
  | tighter {n : Nat} {ts : List Token} {e : Expr} (below : n < operandLevel)
    (derives : Derives (n + 1) ts e) : Derives n ts e
  | binary {op : BinOp} {o ls rs : List Token} {a b : Expr} (left : Derives op.level ls a)
    (spelled : op.Spelled o) (right : Derives (op.level + 1) rs b) :
    Derives op.level (ls ++ o ++ rs) (.binary op a b)
  | conditional {question colon : Token} {cs ts es : List Token} {test a b : Expr}
    (first : Derives 1 cs test) (asks : question.kind = .punct .question) (then_ : Derives 0 ts a)
    (divides : colon.kind = .punct .colon) (else_ : Derives 0 es b) :
    Derives 0 (cs ++ question :: ts ++ colon :: es) (.conditional test a b)

theorem BinOp.level_pos (op : BinOp) : 0 < op.level := by cases op <;> decide

theorem BinOp.level_lt (op : BinOp) : op.level < operandLevel := by cases op <;> decide

/-- What is derived at a level is derived at all that bind less tightly. -/
theorem Derives.mono {m n : Nat} {ts : List Token} {e : Expr} (h : Derives n ts e) (le : m ≤ n)
    (bound : n ≤ operandLevel) : Derives m ts e := by
  obtain ⟨k, rfl⟩ := Nat.exists_eq_add_of_le le
  induction k with
  | zero => exact h
  | succ k ih => exact ih (.tighter (by omega) h) (by omega) (by omega)

/-! ### Arithmetic -/

theorem wrap_toInt (a : Int64) : wrap a.toInt = a := Int64.ofInt_toInt a

theorem isShiftCount_iff (n : Int64) : isShiftCount n = true ↔ 0 ≤ n.toInt ∧ n.toInt < 2 ^ 32 := by
  simp only [isShiftCount, Bool.and_eq_true, decide_eq_true_eq, UInt32.size]
  omega

theorem isDivisible_iff (a b : Int64) : isDivisible a b = true ↔ HasQuotient a.toInt b.toInt := by
  have zero : b = 0 ↔ b.toInt = 0 := by rw [← Int64.toInt_inj]; rfl
  have least : a = Int64.minValue ↔ a.toInt = -2 ^ 63 := by rw [← Int64.toInt_inj]; rfl
  have one : b = -1 ↔ b.toInt = -1 := by rw [← Int64.toInt_inj]; rfl
  simp only [isDivisible, HasQuotient, Bool.and_eq_true, Bool.not_eq_true', Bool.and_eq_false_iff,
    decide_eq_true_eq, beq_eq_false_iff_ne, ne_eq, zero, least, one,
    Decidable.not_and_iff_not_or_not]

/-- A count is never negative, so its remainder by 64 is the number of places. -/
theorem toNat_smod_places {b : Int64} (count : isShiftCount b = true) :
    (b.toBitVec.smod 64).toNat = b.toInt.toNat % 64 := by
  have pos : 0 ≤ b.toBitVec.toInt := ((isShiftCount_iff b).1 count).1
  have positive : b.toBitVec.msb = false := by
    rw [BitVec.msb_eq_toInt]
    simpa using pos
  have value : b.toInt = (b.toBitVec.toNat : Int) := BitVec.toInt_eq_toNat_of_msb positive
  have other : (64 : BitVec 64).msb = false := by decide
  rw [BitVec.smod_eq, positive, other, value, Int.toNat_natCast]
  simp only [BitVec.umod_eq, BitVec.toNat_umod]
  rfl

theorem ofInt_two_pow (n : Nat) : BitVec.ofInt 64 (2 ^ n) = BitVec.twoPow 64 n := by
  apply BitVec.eq_of_toNat_eq
  rw [BitVec.toNat_twoPow, show (2 : Int) ^ n = ((2 ^ n : Nat) : Int) by simp, BitVec.ofInt_natCast,
    BitVec.toNat_ofNat]

theorem shiftLeft_eq_wrap {a b : Int64} (count : isShiftCount b = true) :
    a <<< b = wrap (a.toInt * 2 ^ (b.toInt.toNat % 64)) := by
  rw [← Int64.toBitVec_inj, Int64.toBitVec_shiftLeft, BitVec.shiftLeft_eq', toNat_smod_places count,
    BitVec.shiftLeft_eq_mul_twoPow, wrap, Int64.toBitVec_ofInt, BitVec.ofInt_mul, ofInt_two_pow]
  exact congrArg (· * _) BitVec.ofInt_toInt.symm

theorem shiftRight_eq_wrap {a b : Int64} (count : isShiftCount b = true) :
    a >>> b = wrap (a.toInt / 2 ^ (b.toInt.toNat % 64)) := by
  have power (n : Nat) : ((2 ^ n : Nat) : Int) = 2 ^ n := by simp
  rw [← Int64.toBitVec_inj, Int64.toBitVec_shiftRight, BitVec.sshiftRight_eq',
    toNat_smod_places count, BitVec.sshiftRight, Int.shiftRight_eq_div_pow, wrap,
    Int64.toBitVec_ofInt, Int64.toInt_toBitVec, power]

/-- A number that may count places counts them modulo 64. -/
theorem shiftPlaces_eq (b : Int64) :
    shiftPlaces b.toInt = if isShiftCount b then some (b.toInt.toNat % 64) else none := by
  simp only [shiftPlaces, isShiftCount_iff]

theorem wrap_tdiv (a b : Int64) : wrap (a.toInt.tdiv b.toInt) = a / b := by
  rw [wrap, Int64.ofInt_tdiv a.minValue_le_toInt a.toInt_le b.minValue_le_toInt b.toInt_le,
    Int64.ofInt_toInt, Int64.ofInt_toInt]

theorem wrap_tmod (a b : Int64) : wrap (a.toInt.tmod b.toInt) = a % b := by
  rw [← Int64.toInt_mod, wrap_toInt]

theorem BinOp.apply_eq_value (op : BinOp) (a b : Int64) : op.apply a b = op.value a b := by
  have zero (n : Int64) : (n ≠ 0) ↔ n.toInt ≠ 0 := by rw [ne_eq, ← Int64.toInt_inj]; rfl
  cases op with
  | or | and => simp [apply, value, zero]
  | eq | ne => simp [apply, value, Int64.toInt_inj]
  | lt | gt => simp [apply, value, Int64.lt_iff_toInt_lt]
  | le | ge => simp [apply, value, Int64.le_iff_toInt_le]
  | bitOr | bitXor | bitAnd => rfl
  | add => simp only [apply, value, wrap, Int64.ofInt_add, Int64.ofInt_toInt]
  | sub => simp only [apply, value, wrap, Int64.ofInt_sub, Int64.ofInt_toInt]
  | mul => simp only [apply, value, wrap, Int64.ofInt_mul, Int64.ofInt_toInt]
  | div => simp only [apply, value, isDivisible_iff, wrap_tdiv]
  | rem => simp only [apply, value, isDivisible_iff, wrap_tmod]
  | shl =>
    by_cases count : isShiftCount b = true
    · simp [apply, value, shiftPlaces_eq, count, shiftLeft_eq_wrap count]
    · simp [apply, value, shiftPlaces_eq, count]
  | shr =>
    by_cases count : isShiftCount b = true
    · simp [apply, value, shiftPlaces_eq, count, shiftRight_eq_wrap count]
    · simp [apply, value, shiftPlaces_eq, count]

end HeaderDecl.Condition
