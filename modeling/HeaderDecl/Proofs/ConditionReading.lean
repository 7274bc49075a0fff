import HeaderDecl.Proofs.ConditionGrammar

/-!
Reading a conditional expression by binding power comes to its derivation in the layered grammar:
`evaluate` gives a value to the expressions of the grammar, the value of the expression, and to no
other tokens.
-/

namespace HeaderDecl.Condition

/-! ### Readers without bounds -/

/-- An operand and the tokens after it. -/
def readOperand (ts : List Token) : Option (Int64 × List Token) :=
  (operand ts).map fun r => (r.1, r.2.val)

def readExpression (power : Nat) (ts : List Token) : Option (Int64 × List Token) :=
  (expression power ts).map fun r => (r.1, r.2.val)

def readContinuation (power : Nat) (value : Int64) (ts : List Token) : Option (Int64 × List Token) :=
  (continuation power value ts).map fun r => (r.1, r.2.val)

/-- What is left if some tokens begin with a given punctuator. -/
def dropPunct (p : Punct) : List Token → Option (List Token)
  | [] => none
  | t :: ts => if t.is p then some ts else none

theorem dropPunct_eq_some {p : Punct} {ts rest : List Token} :
    dropPunct p ts = some rest ↔ ∃ t, ts = t :: rest ∧ t.kind = .punct p := by
  cases ts with
  | nil => simp [dropPunct]
  | cons t ts =>
    simp only [dropPunct, Token.is, beq_iff_eq, Option.ite_none_right_eq_some, Option.some.injEq,
      List.cons.injEq]
    constructor
    · rintro ⟨kind, same⟩
      exact ⟨t, ⟨rfl, same⟩, kind⟩
    · rintro ⟨_, ⟨rfl, same⟩, kind⟩
      exact ⟨kind, same⟩

theorem dropPunct_cons {p : Punct} {t : Token} (is : t.kind = .punct p) (ts : List Token) :
    dropPunct p (t :: ts) = some ts := dropPunct_eq_some.2 ⟨t, rfl, is⟩

theorem unaryOf?_punct (op : UnaryOp) : unaryOf? op.punct = some op.value := by
  cases op with
  | not => simp [UnaryOp.punct, unaryOf?, UnaryOp.value, ← Int64.toInt_inj]
  | complement =>
    have complement (a : Int64) : ~~~a = wrap (-a.toInt - 1) := by
      rw [← Int64.toInt_inj, Int64.toInt_not, wrap, Int64.toInt_ofInt]
    simp [UnaryOp.punct, unaryOf?, UnaryOp.value, complement]
  | minus => simp [UnaryOp.punct, unaryOf?, UnaryOp.value, wrap, Int64.ofInt_neg]
  | plus => rfl

theorem unaryOf?_eq_some {p : Punct} {f : Int64 → Int64} (h : unaryOf? p = some f) :
    ∃ op : UnaryOp, p = op.punct ∧ f = op.value := by
  have named : ∃ op : UnaryOp, p = op.punct := by
    cases p <;> first | exact ⟨.not, rfl⟩ | exact ⟨.complement, rfl⟩ | exact ⟨.minus, rfl⟩ |
      exact ⟨.plus, rfl⟩ | cases h
  obtain ⟨op, rfl⟩ := named
  rw [unaryOf?_punct] at h
  exact ⟨op, rfl, (Option.some.inj h).symm⟩

theorem readExpression_eq (power : Nat) (ts : List Token) :
    readExpression power ts = (readOperand ts).bind fun (v, rest) => readContinuation power v rest := by
  unfold readExpression readOperand readContinuation
  rw [expression]
  rcases operand ts with _ | ⟨v, rest, h⟩
  · rfl
  · simp only [Option.map_some, Option.bind_some]
    rcases continuation power v rest with _ | ⟨w, rest', h'⟩ <;> rfl

theorem readOperand_nil : readOperand [] = none := by
  unfold readOperand
  rw [operand]
  rfl

theorem readOperand_group {t : Token} (ts : List Token) (is : t.kind = .punct .lparen) :
    readOperand (t :: ts) =
      (readExpression 0 ts).bind fun (v, rest) => (dropPunct .rparen rest).map (v, ·) := by
  unfold readOperand readExpression
  rw [operand]
  simp only [is]
  rcases expression 0 ts with _ | ⟨v, _ | ⟨u, rest⟩, h⟩
  · rfl
  · rfl
  · simp only [Option.map_some, Option.bind_some, dropPunct]
    split <;> rfl

theorem readOperand_punct {t : Token} {p : Punct} (ts : List Token) (is : t.kind = .punct p)
    (other : p ≠ .lparen) :
    readOperand (t :: ts) =
      (unaryOf? p).bind fun f => (readExpression unaryPower ts).map fun (v, rest) => (f v, rest) := by
  unfold readOperand readExpression
  rw [operand]
  simp only [is]
  split
  · rename_i none_
    simp [none_]
  · rename_i f some_
    simp only [some_, Option.bind_some]
    rcases expression unaryPower ts with _ | ⟨v, rest, h⟩ <;> rfl

theorem readOperand_value {t : Token} (ts : List Token) (other : ∀ p, t.kind ≠ .punct p) :
    readOperand (t :: ts) = (operandValue t).map (·, ts) := by
  unfold readOperand
  rw [operand]
  split
  · rename_i is
    exact absurd is (other _)
  · rename_i is
    exact absurd is (other _)
  · cases operandValue t <;> rfl

theorem readContinuation_nil (power : Nat) (v : Int64) :
    readContinuation power v [] = some (v, []) := by
  unfold readContinuation
  rw [continuation]
  rfl

theorem readContinuation_question {t : Token} {power : Nat} (v : Int64) (ts : List Token)
    (is : t.kind = .punct .question) (loose : power ≤ 1) :
    readContinuation power v (t :: ts) =
      (readExpression 0 ts).bind fun (a, rest) => (dropPunct .colon rest).bind fun rest =>
        (readExpression 1 rest).bind fun (b, rest) =>
          readContinuation power (if v.toInt ≠ 0 then a else b) rest := by
  have zero : (v ≠ 0) ↔ v.toInt ≠ 0 := by rw [ne_eq, ← Int64.toInt_inj]; rfl
  have asks : (t.is .question && decide (power ≤ 1)) = true := by simp [Token.is, is, loose]
  unfold readExpression readContinuation
  rw [continuation]
  simp only [asks, if_true, zero]
  rcases expression 0 ts with _ | ⟨a, _ | ⟨u, rest⟩, h⟩
  · rfl
  · rfl
  simp only [Option.map_some, Option.bind_some, dropPunct]
  split
  · simp only [Option.bind_some]
    rcases expression 1 rest with _ | ⟨b, rest', h'⟩
    · rfl
    simp only [Option.map_some, Option.bind_some]
    rcases continuation power (if v.toInt ≠ 0 then a else b) rest' with _ | ⟨w, r, hr⟩ <;> rfl
  · rfl

theorem takeInfix_punct {t : Token} {p : Punct} (ts : List Token) (is : t.kind = .punct p)
    (other : infixOf? p = none) : takeInfix (t :: ts) = none := by
  have single : p ≠ .greater := by
    rintro rfl
    cases other
  simp [takeInfix, isRightShift, Token.is, is, single, other]

theorem readContinuation_operator {power : Nat} {ts rest : List Token} {i : Infix} (v : Int64)
    (h : takeInfix ts = some (i, rest)) (binds : power ≤ i.left) :
    readContinuation power v ts =
      (readExpression i.right rest).bind fun (b, rest) => (i.op.value v b).bind fun w =>
        readContinuation power w rest := by
  cases ts with
  | nil => simp [takeInfix] at h
  | cons t ts =>
    have other : (t.is .question && decide (power ≤ 1)) = false := by
      by_cases is : t.kind = .punct .question
      · rw [takeInfix_punct ts is rfl] at h
        cases h
      · simp [Token.is, is]
    unfold readExpression readContinuation
    rw [continuation]
    simp only [other, Bool.false_eq_true, if_false]
    split
    · rename_i none_
      rw [h] at none_
      cases none_
    · rename_i j rest' some_
      obtain ⟨rfl, rfl⟩ : i = j ∧ rest = rest' := by
        rw [h] at some_
        simpa using some_
      rw [if_neg (by omega)]
      rcases expression i.right rest with _ | ⟨b, rest', h'⟩
      · rfl
      simp only [Option.map_some, Option.bind_some, ← BinOp.apply_eq_value]
      cases i.op.apply v b with
      | none => rfl
      | some w =>
        simp only [Option.bind_some]
        rcases continuation power w rest' with _ | ⟨w', r, hr⟩ <;> rfl

/-- No operator follows that binds at least as strongly as `power`. -/
structure Stops (power : Nat) (ts : List Token) : Prop where
  question : power ≤ 1 → dropPunct .question ts = none
  infix_ : ∀ i rest, takeInfix ts = some (i, rest) → i.left < power

theorem readContinuation_stop {power : Nat} {ts : List Token} (v : Int64) (h : Stops power ts) :
    readContinuation power v ts = some (v, ts) := by
  cases ts with
  | nil => exact readContinuation_nil power v
  | cons t ts =>
    have other : (t.is .question && decide (power ≤ 1)) = false := by
      by_cases loose : power ≤ 1
      · have := h.question loose
        simp_all [dropPunct]
      · simp [loose]
    unfold readContinuation
    rw [continuation]
    simp only [other, Bool.false_eq_true, if_false]
    split
    · rfl
    · rename_i i rest some_
      rw [if_pos (h.infix_ i rest some_)]
      rfl

/-! ### Operators between operands -/

/-- An operator with the binding powers that its level gives it. -/
def BinOp.toInfix (op : BinOp) : Infix := ⟨op, 2 * op.level, 2 * op.level + 1⟩

theorem infixOf?_eq_some {p : Punct} {i : Infix} (h : infixOf? p = some i) :
    i = i.op.toInfix ∧ i.op.punct? = some p := by
  cases p <;> simp only [infixOf?, Option.some.injEq, reduceCtorEq] at h <;> subst h <;>
    exact ⟨rfl, rfl⟩

theorem infixOf?_punct {op : BinOp} {p : Punct} (h : op.punct? = some p) :
    infixOf? p = some op.toInfix := by
  cases op <;> simp only [BinOp.punct?, Option.some.injEq, reduceCtorEq] at h <;> subst h <;> rfl

theorem isRightShift_iff {t : Token} {ts : List Token} :
    isRightShift t ts = true ↔ t.kind = .punct .greater ∧
      ∃ u rest, ts = u :: rest ∧ u.kind = .punct .greater ∧ u.span.lo = t.span.hi := by
  cases ts with
  | nil => simp [isRightShift]
  | cons u rest => simp [isRightShift, Token.is]

theorem spelled_of_takeInfix {ts rest : List Token} {i : Infix} (h : takeInfix ts = some (i, rest)) :
    i = i.op.toInfix ∧ ∃ o, ts = o ++ rest ∧ i.op.Spelled o := by
  cases ts with
  | nil => simp [takeInfix] at h
  | cons t ts =>
    rw [takeInfix] at h
    split at h
    · rename_i shift
      obtain ⟨first, u, rest', rfl, second, adjacent⟩ := isRightShift_iff.1 shift
      simp only [List.drop_succ_cons, List.drop_zero, Option.some.injEq, Prod.mk.injEq] at h
      obtain ⟨rfl, rfl⟩ := h
      exact ⟨rfl, [t, u], rfl, .shiftRight first second adjacent⟩
    · split at h
      · rename_i p is
        simp only [Option.map_eq_some_iff, Prod.mk.injEq] at h
        obtain ⟨j, some_, rfl, rfl⟩ := h
        obtain ⟨powers, own⟩ := infixOf?_eq_some some_
        exact ⟨powers, [t], rfl, .punct own is⟩
      · cases h

/-- Tokens that do not begin with `>` may stand behind any operator. -/
theorem takeInfix_spelled {op : BinOp} {o rest : List Token} (spelled : op.Spelled o)
    (next : dropPunct .greater rest = none) : takeInfix (o ++ rest) = some (op.toInfix, rest) := by
  cases spelled with
  | @punct op p t own is =>
    have single : isRightShift t rest = false := by
      rw [Bool.eq_false_iff]
      intro shift
      obtain ⟨-, u, rest', rfl, second, -⟩ := isRightShift_iff.1 shift
      rw [dropPunct_cons second] at next
      cases next
    simp [takeInfix, single, is, infixOf?_punct own]
  | @shiftRight t u first second adjacent =>
    have shift : isRightShift t (u :: rest) = true :=
      isRightShift_iff.2 ⟨first, u, rest, rfl, second, adjacent⟩
    simp [takeInfix, shift, BinOp.toInfix, BinOp.level]

/-! ### Tokens that stand by themselves -/

theorem denotes_iff {t : Token} {n : Int64} :
    Denotes t n ↔ (∀ p, t.kind ≠ .punct p) ∧ operandValue t = some n := by
  constructor
  · intro h
    cases h with
    | number kind reads => exact ⟨by simp [kind], by simp [operandValue, kind, reads]⟩
    | character kind reads => exact ⟨by simp [kind], by simp [operandValue, kind, reads]⟩
    | isTrue kind => exact ⟨by simp [kind], by simp [operandValue, kind]⟩
    | isFalse kind => exact ⟨by simp [kind], by simp [operandValue, kind, TokenKind.isWord]⟩
    | word word other =>
      cases kind : t.kind with
      | kw k => exact ⟨by simp, by cases k <;> simp_all [operandValue, TokenKind.isWord]⟩
      | identifier => exact ⟨by simp, by simp [operandValue, kind, TokenKind.isWord]⟩
      | _ => simp [Token.isWord, TokenKind.isWord, kind] at word
  · intro ⟨other, reads⟩
    unfold operandValue at reads
    split at reads
    · exact .number ‹_› reads
    · exact .character ‹_› reads
    · cases reads
      exact .isTrue ‹_›
    · rename_i notTrue
      split at reads
      · rename_i word
        cases reads
        exact .word word notTrue
      · cases reads

/-- An expression begins with an operand, so never with a given operator that stands between two. -/
theorem Derives.head {n : Nat} {ts : List Token} {e : Expr} (h : Derives n ts e) (rest : List Token) :
    dropPunct .greater (ts ++ rest) = none := by
  have begins {t : Token} (ts : List Token) (other : t.kind ≠ .punct .greater) :
      dropPunct .greater (t :: ts) = none := by
    simpa [dropPunct, Token.is] using other
  induction h generalizing rest with
  | literal denotes => exact begins _ ((denotes_iff.1 denotes).1 _)
  | group opens => exact begins _ (by simp [opens])
  | @unary op t ts a is => exact begins _ (by cases op <;> simp [is, UnaryOp.punct])
  | tighter _ _ ih => exact ih rest
  | @binary op o ls rs a b _ _ _ ih =>
    rw [List.append_assoc, List.append_assoc]
    exact ih _
  | conditional _ _ _ _ _ ih =>
    rw [List.append_assoc, List.append_assoc]
    exact ih _

/-! ### Levels and binding powers -/

/-- The level at which operators bind at least as strongly as `power`. -/
def layer (power : Nat) : Nat := if power ≤ 1 then 0 else min ((power + 1) / 2) operandLevel

theorem layer_le (power : Nat) : layer power ≤ operandLevel := by
  unfold layer
  split
  · exact Nat.zero_le _
  · exact Nat.min_le_right _ _

theorem layer_right (op : BinOp) : layer op.toInfix.right = op.level + 1 := by
  have := op.level_pos
  have := op.level_lt
  have powers : op.toInfix.right = 2 * op.level + 1 := rfl
  unfold layer
  rw [powers, if_neg (by omega)]
  omega

theorem layer_le_iff {power n : Nat} (below : n < operandLevel) :
    layer power ≤ n ↔ power ≤ 1 ∨ power ≤ 2 * n := by
  unfold layer
  split <;> omega

/-- No operator follows that could take an expression of some level for its first operand. -/
structure Follows (n : Nat) (ts : List Token) : Prop where
  question : n = 0 → dropPunct .question ts = none
  infix_ : ∀ i rest, takeInfix ts = some (i, rest) → i.op.level ≤ n

theorem left_of_takeInfix {ts rest : List Token} {i : Infix} (h : takeInfix ts = some (i, rest)) :
    i.left = 2 * i.op.level := congrArg Infix.left (spelled_of_takeInfix h).1

theorem Follows.stops_right {op : BinOp} {ts : List Token} (h : Follows op.level ts) :
    Stops op.toInfix.right ts := by
  have pos := op.level_pos
  have powers : op.toInfix.right = 2 * op.level + 1 := rfl
  constructor
  · omega
  · intro i rest some_
    have := left_of_takeInfix some_
    have := h.infix_ i rest some_
    omega

theorem Follows.stops_else {ts : List Token} (h : Follows 0 ts) : Stops 1 ts := by
  constructor
  · exact fun _ => h.question rfl
  · intro i rest some_
    have := i.op.level_pos
    have := h.infix_ i rest some_
    omega

theorem stops_unary (ts : List Token) : Stops unaryPower ts := by
  constructor
  · simp [unaryPower]
  · intro i rest some_
    have := left_of_takeInfix some_
    have : i.op.level < 11 := i.op.level_lt
    simp only [unaryPower]
    omega

theorem Follows.succ {n : Nat} {ts : List Token} (h : Follows n ts) : Follows (n + 1) ts :=
  ⟨by simp, fun i rest some_ => Nat.le_succ_of_le (h.infix_ i rest some_)⟩

theorem follows_operand (ts : List Token) : Follows operandLevel ts :=
  ⟨by simp [operandLevel], fun i _ _ => Nat.le_of_lt i.op.level_lt⟩

theorem stops_punct {t : Token} {p : Punct} (power : Nat) (ts : List Token) (is : t.kind = .punct p)
    (other : infixOf? p = none) (closes : p ≠ .question) : Stops power (t :: ts) :=
  ⟨fun _ => by simpa [dropPunct, Token.is, is] using closes,
    fun _ _ some_ => by rw [takeInfix_punct ts is other] at some_; cases some_⟩

theorem follows_punct {t : Token} {p : Punct} (n : Nat) (ts : List Token) (is : t.kind = .punct p)
    (other : infixOf? p = none) (closes : p ≠ .question ∨ n ≠ 0) : Follows n (t :: ts) :=
  ⟨fun _ => by simp_all [dropPunct, Token.is],
    fun _ _ some_ => by rw [takeInfix_punct ts is other] at some_; cases some_⟩

/-! ### Derivations are read -/

theorem read_binary {op : BinOp} {power : Nat} {v : Int64} {value : Option Int64}
    {o rs rest : List Token} (first : takeInfix (o ++ (rs ++ rest)) = some (op.toInfix, rs ++ rest))
    (binds : power ≤ op.toInfix.left) (next : Follows op.level rest)
    (operand : readExpression op.toInfix.right (rs ++ rest) =
      value.bind fun w => readContinuation op.toInfix.right w rest) :
    readContinuation power v (o ++ (rs ++ rest)) =
      (value.bind (op.value v)).bind fun w => readContinuation power w rest := by
  rw [readContinuation_operator v first binds, operand]
  cases value with
  | none => rfl
  | some w =>
    simp only [Option.bind_some]
    rw [readContinuation_stop w next.stops_right]
    rfl

theorem read_conditional {power : Nat} {c : Int64} {value other : Option Int64} {question colon : Token}
    {ts es rest : List Token} (asks : question.kind = .punct .question)
    (divides : colon.kind = .punct .colon) (loose : power ≤ 1) (next : Follows 0 rest)
    (chosen : readExpression 0 (ts ++ colon :: (es ++ rest)) =
      value.bind fun v => readContinuation 0 v (colon :: (es ++ rest)))
    (alternative : readExpression 1 (es ++ rest) = other.bind fun w => readContinuation 1 w rest) :
    readContinuation power c (question :: (ts ++ colon :: (es ++ rest))) =
      (value.bind fun v => other.map fun w => if c.toInt ≠ 0 then v else w).bind fun v =>
        readContinuation power v rest := by
  rw [readContinuation_question c _ asks loose, chosen]
  cases value with
  | none => rfl
  | some v =>
    have stop := stops_punct 0 (es ++ rest) divides rfl (by decide)
    simp only [Option.bind_some, readContinuation_stop v stop, dropPunct_cons divides]
    rw [alternative]
    cases other with
    | none => rfl
    | some w =>
      simp only [Option.bind_some, Option.map_some]
      rw [readContinuation_stop w next.stops_else]
      rfl

theorem readExpression_of_derives {n power : Nat} {ts rest : List Token} {e : Expr}
    (h : Derives n ts e) (deep : layer power ≤ n) (next : Follows n rest) :
    readExpression power (ts ++ rest) = e.value.bind fun v => readContinuation power v rest := by
  -- What follows is quantified, so that the operand on the left is read up to an operator behind it.
  induction h generalizing power rest with
  | @literal t n denotes =>
    obtain ⟨other, reads⟩ := denotes_iff.1 denotes
    rw [readExpression_eq, List.singleton_append, readOperand_value rest other, reads]
    rfl
  | @group opening closing ts e opens inner closes ih =>
    have inside := @ih 0 (closing :: rest) (Nat.le_refl 0)
      (follows_punct 0 rest closes rfl (.inl (by decide)))
    have split_ : opening :: ts ++ [closing] ++ rest = opening :: (ts ++ closing :: rest) := by simp
    rw [readExpression_eq, split_, readOperand_group _ opens, inside]
    cases e.value with
    | none => rfl
    | some v =>
      have stop := stops_punct 0 rest closes rfl (by decide)
      simp only [Option.bind_some, readContinuation_stop v stop, dropPunct_cons closes, Option.map_some]
  | @unary op t ts a is operand ih =>
    have inside := @ih unaryPower rest (layer_le _) (follows_operand rest)
    have other : op.punct ≠ .lparen := by cases op <;> decide
    rw [readExpression_eq, List.cons_append, readOperand_punct _ is other, unaryOf?_punct, inside]
    simp only [Expr.value, Option.bind_some]
    cases a.value with
    | none => rfl
    | some v =>
      simp only [Option.bind_some, readContinuation_stop v (stops_unary rest), Option.map_some]
  | tighter below derives ih => exact ih (Nat.le_succ_of_le deep) next.succ
  | @binary op o ls rs a b left spelled right ihl ihr =>
    have greater := right.head rest
    have first := takeInfix_spelled spelled greater
    have powers : op.toInfix.left = 2 * op.level := rfl
    have binds : power ≤ op.toInfix.left := by
      have pos := op.level_pos
      have := (layer_le_iff op.level_lt).1 deep
      omega
    have here : Follows op.level (o ++ (rs ++ rest)) := by
      refine ⟨fun zero => absurd zero (Nat.ne_of_gt op.level_pos), ?_⟩
      intro i rest' some_
      rw [first] at some_
      cases some_
      exact Nat.le_refl _
    have second := @ihr op.toInfix.right rest (Nat.le_of_eq (layer_right op)) next.succ
    rw [List.append_assoc, List.append_assoc, ihl deep here]
    simp only [Expr.value]
    cases a.value with
    | none => rfl
    | some v => exact read_binary first binds next second
  | @conditional question colon cs ts es test a b first asks then_ divides else_ ih₁ ih₂ ih₃ =>
    have loose : power ≤ 1 := by
      have := (layer_le_iff (by decide : 0 < operandLevel)).1 deep
      omega
    have here : Follows 1 (question :: (ts ++ colon :: (es ++ rest))) :=
      follows_punct 1 _ asks rfl (.inr (by decide))
    have second := @ih₂ 0 (colon :: (es ++ rest)) (Nat.le_refl 0)
      (follows_punct 0 _ divides rfl (.inl (by decide)))
    have third := @ih₃ 1 rest (Nat.le_refl 0) next
    have split_ : cs ++ question :: ts ++ colon :: es ++ rest =
        cs ++ question :: (ts ++ colon :: (es ++ rest)) := by simp
    rw [split_, ih₁ (Nat.le_succ_of_le deep) here]
    simp only [Expr.value]
    cases test.value with
    | none => rfl
    | some c => exact read_conditional asks divides loose next second third

/-! ### What is read is derived -/

theorem length_of_readExpression {power : Nat} {ts rest : List Token} {v : Int64}
    (h : readExpression power ts = some (v, rest)) : rest.length < ts.length := by
  obtain ⟨⟨w, rest', lt⟩, -, same⟩ := Option.map_eq_some_iff.1 h
  cases same
  exact lt

theorem length_of_readOperand {ts rest : List Token} {v : Int64}
    (h : readOperand ts = some (v, rest)) : rest.length < ts.length := by
  obtain ⟨⟨w, rest', lt⟩, -, same⟩ := Option.map_eq_some_iff.1 h
  cases same
  exact lt

theorem stops_or_goesOn (power : Nat) (ts : List Token) :
    Stops power ts ∨ (power ≤ 1 ∧ ∃ t rest, ts = t :: rest ∧ t.kind = .punct .question) ∨
      ∃ i rest, takeInfix ts = some (i, rest) ∧ power ≤ i.left := by
  cases ts with
  | nil => exact .inl ⟨fun _ => rfl, fun _ _ some_ => by cases some_⟩
  | cons t ts =>
    by_cases asks : t.kind = .punct .question
    · by_cases loose : power ≤ 1
      · exact .inr (.inl ⟨loose, t, ts, rfl, asks⟩)
      · refine .inl ⟨fun le => absurd le loose, fun i rest some_ => ?_⟩
        rw [takeInfix_punct ts asks rfl] at some_
        cases some_
    · have question : dropPunct .question (t :: ts) = none := by
        simpa [dropPunct, Token.is] using asks
      by_cases binds : ∃ i rest, takeInfix (t :: ts) = some (i, rest) ∧ power ≤ i.left
      · exact .inr (.inr binds)
      · refine .inl ⟨fun _ => question, fun i rest some_ => ?_⟩
        exact Nat.lt_of_not_le fun le => binds ⟨i, rest, some_, le⟩

theorem Stops.follows {power n : Nat} {ts : List Token} (h : Stops power ts)
    (loose : n = 0 → power ≤ 1) (weak : power ≤ 2 * n + 1) : Follows n ts := by
  constructor
  · exact fun zero => h.question (loose zero)
  · intro i rest some_
    have := left_of_takeInfix some_
    have := h.infix_ i rest some_
    omega

/-- What some tokens read at `power` are: an expression with its value, and tokens that do not go on
with it. -/
def Reads (power : Nat) (ts : List Token) (v : Int64) (rest : List Token) : Prop :=
  ∃ used e, ts = used ++ rest ∧ Derives (layer power) used e ∧ e.value = some v ∧ Stops power rest

section Sound

variable {bound : Nat}
  (inner : ∀ power ts v rest, ts.length < bound → readExpression power ts = some (v, rest) →
    Reads power ts v rest)
include inner

theorem derives_of_readOperand {ts rest : List Token} {v : Int64} (len : ts.length ≤ bound)
    (h : readOperand ts = some (v, rest)) :
    ∃ used e, ts = used ++ rest ∧ Derives operandLevel used e ∧ e.value = some v := by
  cases ts with
  | nil =>
    rw [readOperand_nil] at h
    cases h
  | cons t ts =>
    by_cases punct : ∃ p, t.kind = .punct p
    · obtain ⟨p, is⟩ := punct
      by_cases opens : p = .lparen
      · subst opens
        rw [readOperand_group ts is] at h
        simp only [Option.bind_eq_some_iff, Option.map_eq_some_iff, Prod.mk.injEq] at h
        obtain ⟨⟨w, middle⟩, reads, rest', drops, rfl, rfl⟩ := h
        obtain ⟨used, e, rfl, derives, value, -⟩ := inner 0 ts w middle len reads
        obtain ⟨closing, rfl, closes⟩ := dropPunct_eq_some.1 drops
        exact ⟨t :: used ++ [closing], e, by simp, .group is derives closes, value⟩
      · rw [readOperand_punct ts is opens] at h
        simp only [Option.bind_eq_some_iff, Option.map_eq_some_iff, Prod.mk.injEq] at h
        obtain ⟨f, unary, ⟨w, middle⟩, reads, rfl, rfl⟩ := h
        obtain ⟨op, rfl, rfl⟩ := unaryOf?_eq_some unary
        obtain ⟨used, e, rfl, derives, value, -⟩ := inner _ ts w middle len reads
        exact ⟨t :: used, .unary op e, rfl, .unary is derives, by simp [Expr.value, value]⟩
    · have other : ∀ p, t.kind ≠ .punct p := fun p is => punct ⟨p, is⟩
      rw [readOperand_value ts other] at h
      simp only [Option.map_eq_some_iff, Prod.mk.injEq] at h
      obtain ⟨w, reads, rfl, rfl⟩ := h
      exact ⟨[t], .literal w, rfl, .literal (denotes_iff.2 ⟨other, reads⟩), rfl⟩

theorem derives_of_readContinuation {n power : Nat} {ls ts rest : List Token} {e : Expr} {v w : Int64}
    (len : ts.length ≤ bound) (left : Derives n ls e) (value : e.value = some v)
    (level : n ≤ operandLevel) (deep : layer power ≤ n) (next : Follows n ts)
    (h : readContinuation power v ts = some (w, rest)) :
    ∃ used e', ts = used ++ rest ∧ Derives (layer power) (ls ++ used) e' ∧ e'.value = some w ∧
      Stops power rest := by
  -- Each operator makes a longer expression of what has been read, with less left behind it.
  induction size : ts.length using Nat.strongRecOn generalizing n ls ts e v with
  | ind size_ ih =>
  subst size
  rcases stops_or_goesOn power ts with stop | ⟨loose, t, ts, rfl, is⟩ | ⟨i, after, some_, binds⟩
  · rw [readContinuation_stop v stop] at h
    cases h
    exact ⟨[], e, rfl, by simpa using left.mono deep level, value, stop⟩
  · rw [readContinuation_question v ts is loose] at h
    simp only [Option.bind_eq_some_iff] at h
    obtain ⟨⟨a, r₁⟩, readsA, r₂, drops, ⟨b, r₃⟩, readsB, goes⟩ := h
    obtain ⟨colon, rfl, divides⟩ := dropPunct_eq_some.1 drops
    have first := length_of_readExpression readsA
    have second := length_of_readExpression readsB
    simp only [List.length_cons] at len first second
    obtain ⟨usedA, ea, rfl, derivesA, valueA, -⟩ := inner 0 _ a _ (by omega) readsA
    obtain ⟨usedB, eb, rfl, derivesB, valueB, stop⟩ := inner 1 _ b _ (by omega) readsB
    -- A first conditional operator would have taken this one into its last branch.
    have tight : 1 ≤ n := by
      rcases Nat.eq_zero_or_pos n with zero | pos
      · have := next.question zero
        rw [dropPunct_cons is] at this
        cases this
      · exact pos
    have whole := Derives.conditional (left.mono tight level) is derivesA divides derivesB
    have zero : layer power = 0 := if_pos loose
    obtain ⟨used, e', rfl, derives, value', stop'⟩ :=
      ih r₃.length (by simp only [List.length_append, List.length_cons]; omega) (by omega) whole
        (by simp [Expr.value, value, valueA, valueB]) (Nat.zero_le _) (Nat.le_of_eq zero)
        (stop.follows (fun _ => Nat.le_refl 1) (by omega)) goes rfl
    refine ⟨t :: usedA ++ colon :: usedB ++ used, e', by simp, ?_, value', stop'⟩
    simpa using derives
  · rw [readContinuation_operator v some_ binds] at h
    simp only [Option.bind_eq_some_iff] at h
    obtain ⟨⟨b, r₁⟩, readsB, w', applied, goes⟩ := h
    have first := length_takeInfix_lt some_
    have second := length_of_readExpression readsB
    have low := next.infix_ i after some_
    obtain ⟨powers, o, rfl, spelled⟩ := spelled_of_takeInfix some_
    obtain ⟨usedB, eb, rfl, derivesB, valueB, stop⟩ := inner _ _ b r₁ (by omega) readsB
    have right : i.right = i.op.toInfix.right := congrArg Infix.right powers
    have left' : i.left = 2 * i.op.level := congrArg Infix.left powers
    rw [right, layer_right] at derivesB
    have whole := Derives.binary (left.mono low level) spelled derivesB
    have below := i.op.level_lt
    have pos := i.op.level_pos
    obtain ⟨used, e', rfl, derives, value', stop'⟩ :=
      ih r₁.length (by omega) (by omega) whole (by simp [Expr.value, value, valueB, applied])
        (Nat.le_of_lt below) ((layer_le_iff below).2 (by omega))
        (stop.follows (by omega) (by rw [right]; exact Nat.le_refl _)) goes rfl
    refine ⟨o ++ usedB ++ used, e', by simp, ?_, value', stop'⟩
    simpa using derives

end Sound

theorem reads_of_readExpression {power : Nat} {ts rest : List Token} {v : Int64}
    (h : readExpression power ts = some (v, rest)) : Reads power ts v rest := by
  induction size : ts.length using Nat.strongRecOn generalizing power ts v rest with
  | ind size_ ih =>
  subst size
  have inner : ∀ power' ts' v' rest', ts'.length < ts.length →
      readExpression power' ts' = some (v', rest') → Reads power' ts' v' rest' :=
    fun _ _ _ _ lt reads => ih _ lt reads rfl
  rw [readExpression_eq] at h
  simp only [Option.bind_eq_some_iff] at h
  obtain ⟨⟨u, middle⟩, first, goes⟩ := h
  have len := length_of_readOperand first
  obtain ⟨used, e, split_, derives, value⟩ := derives_of_readOperand inner (Nat.le_refl _) first
  obtain ⟨more, e', rfl, derives', value', stop⟩ :=
    derives_of_readContinuation inner (Nat.le_of_lt len) derives value (Nat.le_refl _)
      (layer_le power) (follows_operand middle) goes
  exact ⟨used ++ more, e', by simp [split_], derives', value', stop⟩

/-! ### The value of a condition -/

theorem evaluate_eq (ts : List Token) :
    evaluate ts = (readExpression 0 ts).bind fun (v, rest) => if rest = [] then some v else none := by
  unfold evaluate readExpression
  rcases expression 0 ts with _ | ⟨v, _ | ⟨t, rest⟩, h⟩ <;> rfl

theorem evaluate_of_derives {ts : List Token} {e : Expr} (h : Derives 0 ts e) :
    evaluate ts = e.value := by
  have next : Follows 0 [] := ⟨fun _ => rfl, fun _ _ some_ => by cases some_⟩
  have reads := @readExpression_of_derives 0 0 ts [] e h (Nat.le_refl 0) next
  rw [List.append_nil] at reads
  rw [evaluate_eq, reads]
  cases e.value with
  | none => rfl
  | some v => simp [readContinuation_nil]

theorem derives_of_evaluate {ts : List Token} {v : Int64} (h : evaluate ts = some v) :
    ∃ e, Derives 0 ts e ∧ e.value = some v := by
  rw [evaluate_eq] at h
  simp only [Option.bind_eq_some_iff, Option.ite_none_right_eq_some, Option.some.injEq] at h
  obtain ⟨⟨w, rest⟩, reads, rfl, rfl⟩ := h
  obtain ⟨used, e, rfl, derives, value, -⟩ := reads_of_readExpression reads
  have whole : Derives 0 used e := derives
  exact ⟨e, by simpa using whole, value⟩

/-- The tokens that have a value are those of an expression with that value, and an expression without
a value is refused, however it is read. -/
theorem evaluate_iff_derives (ts : List Token) :
    (∀ v, evaluate ts = some v ↔ ∃ e, Derives 0 ts e ∧ e.value = some v) ∧
      ∀ e, Derives 0 ts e → evaluate ts = e.value := by
  refine ⟨fun v => ⟨derives_of_evaluate, ?_⟩, fun e h => evaluate_of_derives h⟩
  rintro ⟨e, derives, value⟩
  rw [evaluate_of_derives derives, value]

/-- A sum binds more tightly than a shift, so `8 >> 1 + 1` is 2. -/
theorem evaluate_shift_by_sum :
    evaluate [.synthetic .number "8", .synthetic (.punct .greater) ">",
      .synthetic (.punct .greater) ">", .synthetic .number "1", .synthetic (.punct .plus) "+",
      .synthetic .number "1"] = some 2 := by
  have literal (text : String) (n : Int64) (level : Nat) (reads : Literal.int? text = some n)
      (le : level ≤ operandLevel) : Derives level [.synthetic .number text] (.literal n) := by
    have denotes : Denotes (.synthetic .number text) n := .number rfl reads
    exact (Derives.literal denotes).mono le (Nat.le_refl _)
  have plus : BinOp.add.Spelled [.synthetic (.punct .plus) "+"] := .punct rfl rfl
  have shift : BinOp.shr.Spelled
      [.synthetic (.punct .greater) ">", .synthetic (.punct .greater) ">"] :=
    .shiftRight rfl rfl rfl
  have sum := Derives.binary (literal "1" 1 BinOp.add.level (by decide) (by decide)) plus
    (literal "1" 1 (BinOp.add.level + 1) (by decide) (by decide))
  have whole := Derives.binary (literal "8" 8 BinOp.shr.level (by decide) (by decide)) shift sum
  exact ((evaluate_iff_derives _).2 _ (whole.mono (Nat.zero_le 8) (by decide))).trans (by decide)

end HeaderDecl.Condition
