import HeaderDecl.Token.Basic
import HeaderDecl.Token.Literal

/-!
The values of conditional expressions: 64-bit integers that wrap, with zero for false. Operators are
read by binding power.
-/

namespace HeaderDecl.Condition

inductive BinOp where
  | or | and | bitOr | bitXor | bitAnd | eq | ne | lt | le | gt | ge | shl | shr
  | add | sub | mul | div | rem
deriving DecidableEq, Repr

/-- One for true and zero for false. -/
def truth (b : Bool) : Int64 := if b then 1 else 0

/-- Whether a number may count the places of a shift. -/
def isShiftCount (n : Int64) : Bool := 0 ≤ n.toInt && n.toInt.toNat < UInt32.size

/-- Whether a quotient exists and fits. -/
def isDivisible (a b : Int64) : Bool := b ≠ 0 && !(a == Int64.minValue && b == -1)

/-- The value of an operator. Shift counts are taken modulo 64. -/
def BinOp.apply (op : BinOp) (a b : Int64) : Option Int64 :=
  match op with
  -- Both operands have a value by now, also where the first one would decide.
  | or => some (truth (a ≠ 0 || b ≠ 0))
  | and => some (truth (a ≠ 0 && b ≠ 0))
  | bitOr => some (a ||| b)
  | bitXor => some (a ^^^ b)
  | bitAnd => some (a &&& b)
  | eq => some (truth (a = b))
  | ne => some (truth (a ≠ b))
  | lt => some (truth (a < b))
  | le => some (truth (a ≤ b))
  | gt => some (truth (b < a))
  | ge => some (truth (b ≤ a))
  | shl => if isShiftCount b then some (a <<< b) else none
  | shr => if isShiftCount b then some (a >>> b) else none
  | add => some (a + b)
  | sub => some (a - b)
  | mul => some (a * b)
  | div => if isDivisible a b then some (a / b) else none
  | rem => if isDivisible a b then some (a % b) else none

/-- An operator with its binding powers to the left and to the right. -/
structure Infix where
  op : BinOp
  left : Nat
  right : Nat

/-- The operator that a punctuator stands for by itself. -/
def infixOf? : Punct → Option Infix
  | .pipePipe => some ⟨.or, 2, 3⟩
  | .ampAmp => some ⟨.and, 4, 5⟩
  | .pipe => some ⟨.bitOr, 6, 7⟩
  | .caret => some ⟨.bitXor, 8, 9⟩
  | .amp => some ⟨.bitAnd, 10, 11⟩
  | .eqEq => some ⟨.eq, 12, 13⟩
  | .notEq => some ⟨.ne, 12, 13⟩
  | .less => some ⟨.lt, 14, 15⟩
  | .lessEq => some ⟨.le, 14, 15⟩
  | .greater => some ⟨.gt, 14, 15⟩
  | .greaterEq => some ⟨.ge, 14, 15⟩
  | .lessLess => some ⟨.shl, 16, 17⟩
  | .plus => some ⟨.add, 18, 19⟩
  | .minus => some ⟨.sub, 18, 19⟩
  | .star => some ⟨.mul, 20, 21⟩
  | .slash => some ⟨.div, 20, 21⟩
  | .percent => some ⟨.rem, 20, 21⟩
  | _ => none

/-- Two adjacent `>` are a shift to the right. -/
def isRightShift (t : Token) (ts : List Token) : Bool :=
  t.is .greater && ts.head?.any fun u => u.is .greater && u.span.lo == t.span.hi

/-- The operator at the front of some tokens, and the tokens after it. -/
def takeInfix : List Token → Option (Infix × List Token)
  | [] => none
  | t :: ts =>
    if isRightShift t ts then some (⟨.shr, 16, 17⟩, ts.drop 1)
    else match t.kind with
      | .punct p => (infixOf? p).map (·, ts)
      | _ => none

theorem length_takeInfix_lt {ts rest : List Token} {i : Infix} (h : takeInfix ts = some (i, rest)) :
    rest.length < ts.length := by
  cases ts with
  | nil => simp [takeInfix] at h
  | cons t ts =>
    simp only [takeInfix] at h
    split at h
    · simp only [Option.some.injEq, Prod.mk.injEq] at h
      obtain ⟨_, rfl⟩ := h
      simp only [List.length_drop, List.length_cons]
      omega
    · split at h
      · simp only [Option.map_eq_some_iff, Prod.mk.injEq] at h
        obtain ⟨_, _, _, rfl⟩ := h
        simp
      · simp at h

/-- The value of a token that is an operand by itself. Words that are left are not macros and count
as zero. -/
def operandValue (t : Token) : Option Int64 :=
  match t.kind with
  | .number => Literal.int? t.text
  | .charLiteral => Literal.char? t.text
  | .kw .trueKw => some 1
  | kind => if kind.isWord then some 0 else none

/-- The operators that stand before an operand. -/
def unaryOf? : Punct → Option (Int64 → Int64)
  | .bang => some fun a => truth (a = 0)
  | .tilde => some fun a => ~~~a
  | .minus => some fun a => -a
  | .plus => some fun a => a
  | _ => none

/-- The binding power of unary operators, above all others. -/
def unaryPower : Nat := 23

/-- What is left of some tokens after a part of them has been read. -/
abbrev Rest (ts : List Token) := { rest : List Token // rest.length < ts.length }

mutual

/-- Reads an operand: a literal or a word, an expression in parentheses, or an operator before an
operand. -/
def operand (ts : List Token) : Option (Int64 × Rest ts) :=
  match ts with
  | [] => none
  | t :: ts' =>
    match t.kind with
    | .punct .lparen =>
      match expression 0 ts' with
      | some (v, ⟨u :: rest, h⟩) =>
        if u.is .rparen then some (v, ⟨rest, by simp only [List.length_cons] at *; omega⟩) else none
      | _ => none
    | .punct p =>
      match unaryOf? p with
      | none => none
      | some f =>
        match expression unaryPower ts' with
        | some (v, ⟨rest, h⟩) => some (f v, ⟨rest, by simp only [List.length_cons]; omega⟩)
        | none => none
    | _ => (operandValue t).map (·, ⟨ts', by simp⟩)
termination_by (ts.length, 0)

/-- Reads an expression whose operators bind at least as strongly as `power`. -/
def expression (power : Nat) (ts : List Token) : Option (Int64 × Rest ts) :=
  match operand ts with
  | none => none
  | some (v, ⟨rest, h⟩) =>
    match continuation power v rest with
    | none => none
    | some (w, ⟨rest', h'⟩) => some (w, ⟨rest', by omega⟩)
termination_by (ts.length, 1)

/-- Reads the operators after a first operand with the given value. The conditional operator binds
least of all, and to the right. -/
def continuation (power : Nat) (value : Int64) (ts : List Token) :
    Option (Int64 × { rest : List Token // rest.length ≤ ts.length }) :=
  match ts with
  | [] => some (value, ⟨[], Nat.le_refl _⟩)
  | t :: ts' =>
    if t.is .question && power ≤ 1 then
      match expression 0 ts' with
      | some (a, ⟨u :: rest, h⟩) =>
        -- Both branches have to have a value.
        if u.is .colon then
          match expression 1 rest with
          | some (b, ⟨rest', h'⟩) =>
            match continuation power (if value ≠ 0 then a else b) rest' with
            | some (v, ⟨r, hr⟩) => some (v, ⟨r, by simp only [List.length_cons] at *; omega⟩)
            | none => none
          | none => none
        else none
      | _ => none
    else
      match hi : takeInfix (t :: ts') with
      | none => some (value, ⟨t :: ts', Nat.le_refl _⟩)
      | some (i, rest) =>
        have hlt := length_takeInfix_lt hi
        if i.left < power then some (value, ⟨t :: ts', Nat.le_refl _⟩)
        else
          match expression i.right rest with
          | none => none
          | some (b, ⟨rest', h'⟩) =>
            match i.op.apply value b with
            | none => none
            | some v =>
              match continuation power v rest' with
              | some (w, ⟨r, hr⟩) => some (w, ⟨r, by omega⟩)
              | none => none
termination_by (ts.length, 0)
decreasing_by
  all_goals apply Prod.Lex.left
  all_goals simp only [List.length_cons] at *
  all_goals omega

end

/-- The value of an expression that takes up all tokens. -/
def evaluate (ts : List Token) : Option Int64 :=
  match expression 0 ts with
  | some (v, ⟨[], _⟩) => some v
  | _ => none

end HeaderDecl.Condition
