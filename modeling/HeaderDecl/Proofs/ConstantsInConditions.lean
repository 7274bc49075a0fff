import HeaderDecl.Proofs.ConditionReading
import HeaderDecl.Proofs.MovedText
import HeaderDecl.Proofs.RecordedConstants

/-!
Constants in conditions. A condition that is the name of a macro has the value that was recorded for it,
unless the macro uses its own older definition or a shift to the right.
-/

namespace HeaderDecl

namespace Condition

/-- No two tokens in a row are `>`, which may be a shift to the right if they are adjacent. -/
def ShiftFree (ts : List Token) : Prop :=
  ts.IsChain fun t u => ¬(t.is .greater = true ∧ u.is .greater = true)

instance (ts : List Token) : Decidable (ShiftFree ts) := inferInstanceAs (Decidable (ts.IsChain _))

theorem ShiftFree.left {ts us : List Token} (h : ShiftFree (ts ++ us)) : ShiftFree ts :=
  List.IsChain.left_of_append h

theorem ShiftFree.right {ts us : List Token} (h : ShiftFree (ts ++ us)) : ShiftFree us :=
  List.IsChain.right_of_append h

theorem Denotes.of_face {t u : Token} {n : Int64} (h : Denotes t n) (same : u.face = t.face) :
    Denotes u n := by
  obtain ⟨kind, text⟩ := Prod.mk.inj same
  cases h with
  | number is reads => exact .number (kind.trans is) (text ▸ reads)
  | character is reads => exact .character (kind.trans is) (text ▸ reads)
  | isTrue is => exact .isTrue (kind.trans is)
  | isFalse is => exact .isFalse (kind.trans is)
  | word word other => exact .word (by rw [Token.isWord, kind]; exact word) (kind ▸ other)

theorem kind_of_face {t u : Token} (same : u.face = t.face) : u.kind = t.kind :=
  congrArg Prod.fst same

/-- An operator that is no shift to the right is one token, so it is the same operator anywhere. -/
theorem BinOp.Spelled.of_face {op : BinOp} {o o' : List Token} (h : op.Spelled o)
    (shiftFree : ShiftFree o) (same : o'.map Token.face = o.map Token.face) : op.Spelled o' := by
  cases h with
  | punct own is =>
    obtain ⟨u, rfl, here⟩ := List.map_eq_singleton_iff.mp same
    exact .punct own ((kind_of_face here).trans is)
  | @shiftRight t u first second adjacent =>
    have apart := (List.isChain_pair.mp shiftFree)
    simp [Token.is, first, second] at apart

/-- An expression without shifts to the right is the same one wherever its tokens stand. -/
theorem Derives.of_face {n : Nat} {ts us : List Token} {e : Expr} (h : Derives n ts e)
    (shiftFree : ShiftFree ts) (same : us.map Token.face = ts.map Token.face) : Derives n us e := by
  induction h generalizing us with
  | literal denotes =>
    obtain ⟨u, rfl, here⟩ := List.map_eq_singleton_iff.mp same
    exact .literal (denotes.of_face here)
  | group opens inner closes ih =>
    rw [List.map_append] at same
    obtain ⟨front, last, rfl, front_, last_⟩ := List.map_eq_append_iff.mp same
    obtain ⟨opening, us, rfl, opening_, inner_⟩ := List.map_eq_cons_iff.mp front_
    obtain ⟨closing, rfl, closing_⟩ := List.map_eq_singleton_iff.mp last_
    exact .group ((kind_of_face opening_).trans opens) (ih shiftFree.left.tail inner_)
      ((kind_of_face closing_).trans closes)
  | unary is operand ih =>
    obtain ⟨u, us, rfl, here, same⟩ := List.map_eq_cons_iff.mp same
    exact .unary ((kind_of_face here).trans is) (ih shiftFree.tail same)
  | tighter below derives ih => exact .tighter below (ih shiftFree same)
  | binary left spelled right ihLeft ihRight =>
    rw [List.map_append, List.map_append] at same
    obtain ⟨front, rs, rfl, front_, right_⟩ := List.map_eq_append_iff.mp same
    obtain ⟨ls, o, rfl, left_, operator⟩ := List.map_eq_append_iff.mp front_
    exact .binary (ihLeft shiftFree.left.left left_) (spelled.of_face shiftFree.left.right operator)
      (ihRight shiftFree.right right_)
  | conditional first asks then_ divides else_ ihFirst ihThen ihElse =>
    rw [List.map_append, List.map_append] at same
    obtain ⟨front, back, rfl, front_, back_⟩ := List.map_eq_append_iff.mp same
    obtain ⟨cs, middle, rfl, test_, middle_⟩ := List.map_eq_append_iff.mp front_
    obtain ⟨question, ts, rfl, question_, first_⟩ := List.map_eq_cons_iff.mp middle_
    obtain ⟨colon, es, rfl, colon_, second_⟩ := List.map_eq_cons_iff.mp back_
    exact .conditional (ihFirst shiftFree.left.left test_) ((kind_of_face question_).trans asks)
      (ihThen shiftFree.left.right.tail first_) ((kind_of_face colon_).trans divides)
      (ihElse shiftFree.right.tail second_)

/-- A condition without shifts to the right has the same value wherever its tokens stand. -/
theorem evaluate_of_face {ts us : List Token} {v : Int64} (value : evaluate ts = some v)
    (shiftFree : ShiftFree ts) (same : us.map Token.face = ts.map Token.face) : evaluate us = some v := by
  obtain ⟨e, derives, value⟩ := derives_of_evaluate value
  rw [evaluate_of_derives (derives.of_face shiftFree same), value]

end Condition

/-! ### Bodies with a value -/

namespace MacroConstant

open Condition

/-- A token that is neither a name nor malformed, which expansion leaves as it is. -/
structure Fixed (t : Token) : Prop where
  noWord : t.isWord = false
  wellFormed : ∀ e, t.kind ≠ .error e

theorem expand_fixed {s : Macro.Scope} {active : List String} {ts : List Token}
    (fixed : ∀ t ∈ ts, Fixed t) : Macro.expand s active ts = .ok ts := by
  induction ts with
  | nil => simp only [Macro.expand]
  | cons t ts ih =>
    obtain ⟨⟨noWord, wellFormed⟩, others⟩ := List.forall_mem_cons.mp fixed
    rw [Macro.expand_kept wellFormed (by simp [noWord]), ih others]
    rfl

theorem fixed_punct {t : Token} {p : Punct} (is : t.kind = .punct p) : Fixed t :=
  ⟨by simp [Token.isWord, is, TokenKind.isWord], by simp [is]⟩

/-- An operand in parentheses is one, and expansion leaves it as it is if it leaves the operand. -/
theorem derives_of_stripParens {body : List Token} {e : Expr}
    (derives : Derives operandLevel (stripParens body) e) (fixed : ∀ t ∈ stripParens body, Fixed t) :
    Derives operandLevel body e ∧ ∀ t ∈ body, Fixed t := by
  fun_induction stripParens body with
  | case1 t u rest parens ih =>
    obtain ⟨inner, innerFixed⟩ := ih derives fixed
    obtain ⟨opens, last⟩ := Bool.and_eq_true_iff.mp parens
    obtain ⟨closing, last, closes⟩ := (Option.any_eq_true _ _).mp last
    rw [Token.is, beq_iff_eq] at opens closes
    have whole : u :: rest = (u :: rest).dropLast ++ [closing] := by
      obtain ⟨front, split⟩ := List.getLast?_eq_some_iff.mp last
      rw [split, List.dropLast_concat]
    rw [whole]
    refine ⟨.group opens (inner.mono (Nat.zero_le _) (Nat.le_refl _)) closes, ?_⟩
    simp only [List.forall_mem_cons, List.forall_mem_append]
    exact ⟨fixed_punct opens, innerFixed, fixed_punct closes, List.forall_mem_nil _⟩
  | case2 t u rest parens => exact ⟨derives, fixed⟩
  | case3 body => exact ⟨derives, fixed⟩

theorem minus_value (n : Int64) : UnaryOp.value n .minus = -n :=
  (congrFun (Option.some.inj (unaryOf?_punct .minus)) n).symm

/-- A number with a sign before it is an operand. -/
theorem derives_of_signedLiteral {ts : List Token} {negative : Bool} {t : Token} {n : Int64}
    (signed : signedLiteral ts = some (negative, t)) (denotes : Denotes t n) (fixed : Fixed t) :
    (∃ e, Derives operandLevel ts e ∧ e.value = some (if negative then -n else n)) ∧
      ∀ t ∈ ts, Fixed t := by
  unfold signedLiteral at signed
  split at signed
  · cases signed
    exact ⟨⟨_, .literal denotes, rfl⟩, by simpa using fixed⟩
  · rename_i sign t'
    split at signed
    next minus =>
      cases signed
      rw [Token.is, beq_iff_eq] at minus
      refine ⟨⟨.unary .minus (.literal n), .unary minus (.literal denotes), ?_⟩, ?_⟩
      · simp [Expr.value, minus_value]
      · simpa using ⟨fixed_punct minus, fixed⟩
    next =>
      split at signed
      next plus =>
        cases signed
        rw [Token.is, beq_iff_eq] at plus
        refine ⟨⟨.unary .plus (.literal n), .unary plus (.literal denotes), rfl⟩, ?_⟩
        simpa using ⟨fixed_punct plus, fixed⟩
      next => cases signed
  · cases signed

/-- A body that is an integer literal is an operand with its value, and expansion leaves it as it is. -/
theorem derives_of_literalValue {body : List Token} {v : Int64}
    (value : literalValue body = some (.int v)) :
    (∃ e, Derives operandLevel body e ∧ e.value = some v) ∧ ∀ t ∈ body, Fixed t := by
  unfold literalValue at value
  obtain ⟨⟨negative, t⟩, signed, value⟩ := Option.bind_eq_some_iff.mp value
  have given : ∃ n, Denotes t n ∧ Fixed t ∧ v = if negative then -n else n := by
    dsimp only at value
    split at value
    next is =>
      split at value
      next n reads =>
        cases value
        have fixed : Fixed t := ⟨by simp [Token.isWord, is, TokenKind.isWord], by simp [is]⟩
        exact ⟨n, .number is reads, fixed, rfl⟩
      next => simp at value
    next is =>
      obtain ⟨n, reads, same⟩ := Option.map_eq_some_iff.mp value
      cases same
      have fixed : Fixed t := ⟨by simp [Token.isWord, is, TokenKind.isWord], by simp [is]⟩
      exact ⟨n, .character is reads, fixed, rfl⟩
    next => split at value <;> cases value
    next => cases value
  obtain ⟨n, denotes, fixed, rfl⟩ := given
  obtain ⟨⟨e, derives, value⟩, allFixed⟩ := derives_of_signedLiteral signed denotes fixed
  obtain ⟨derives, allFixed⟩ := derives_of_stripParens derives allFixed
  exact ⟨⟨e, derives, value⟩, allFixed⟩

/-- A body with an integer value expands to a condition of this value. -/
theorem evaluate_of_valueOf {s : Macro.Scope} {body : List Token} {v : Int64}
    (value : valueOf s body = some (.int v)) :
    ∃ expanded, Macro.expand s [] body = .ok expanded ∧ evaluate expanded = some v := by
  unfold valueOf at value
  cases literal : literalValue body with
  | some w =>
    rw [literal] at value
    cases Option.some.inj value
    obtain ⟨⟨e, derives, value⟩, fixed⟩ := derives_of_literalValue literal
    refine ⟨body, expand_fixed fixed, ?_⟩
    rw [evaluate_of_derives (derives.mono (Nat.zero_le _) (Nat.le_refl _)), value]
  | none =>
    rw [literal] at value
    have integer : integerValue s body = some (.int v) := value
    unfold integerValue at integer
    split at integer
    · cases integer
    · split at integer
      next expanded expands =>
        split at integer
        · obtain ⟨v', value, same⟩ := Option.map_eq_some_iff.mp integer
          cases same
          exact ⟨expanded, expands, value⟩
        · cases integer
      next => cases integer

end MacroConstant

/-! ### Conditions that are a name -/

namespace Macro

/-- A scope in which a name means nothing. -/
def Scope.without (s : Scope) (name : String) : Scope := { s with table := s.table.erase name }

/-- A scope in which a name is an object-like macro. -/
def Scope.withObject (s : Scope) (name : String) (body : List Token) : Scope :=
  { s with table := s.table.insert name ⟨none, none, body⟩ }

section Names

variable {s : Scope} {name other : String} {body : List Token}

@[simp] theorem without_isStripped : (s.without name).isStripped other = s.isStripped other := rfl

@[simp] theorem withObject_isStripped :
    (s.withObject name body).isStripped other = s.isStripped other := rfl

@[simp] theorem without_get? :
    (s.without name).table.get? other = if other = name then none else s.table.get? other :=
  NameMap.get?_erase _ _ _

@[simp] theorem withObject_get? : (s.withObject name body).table.get? other =
    if other = name then some ⟨none, none, body⟩ else s.table.get? other :=
  NameMap.get?_insert _ _ _ _

/-- A name that is no macro means nothing already. -/
theorem without_of_unknown (unknown : s.table.get? name = none) : s.without name = s := by
  obtain ⟨⟨pairs⟩, stripped⟩ := s
  have absent : ∀ p ∈ pairs, decide (p.1 ≠ name) = true := by
    simp only [NameMap.get?] at unknown
    induction pairs with
    | nil => exact List.forall_mem_nil _
    | cons p pairs ih =>
      simp only [NameMap.find] at unknown
      split at unknown
      · cases unknown
      · exact List.forall_mem_cons.mpr ⟨by simpa using Ne.symm ‹_›, ih unknown⟩
  simp only [Scope.without, NameMap.erase, List.filter_eq_self.mpr absent]

/-- Within the replacement of its own name a macro means nothing. -/
theorem fate_withObject (shown : s.isStripped name = false) (body : List Token) (other : String) :
    (s.withObject name body).fate [name] other = (s.without name).fate [] other := by
  by_cases same : other = name
  · simp [Scope.fate, same, shown]
  · simp [Scope.fate, same, Scope.stripsArguments]

/-- The name of an object-like macro expands like its body where the name means nothing. -/
theorem expand_name {t : Token} {expanded : List Token} (word : t.isWord = true)
    (shown : s.isStripped t.text = false)
    (expands : expand (s.without t.text) [] body = .ok expanded) :
    ∃ expanded', expand (s.withObject t.text body) [] [t] = .ok expanded' ∧
      Alike false expanded expanded' := by
  have fate : (s.withObject t.text body).fate [] t.text = .replaced ⟨none, none, body⟩ := by
    simp [Scope.fate, shown]
  obtain ⟨expanded', expands', alike⟩ :=
    follows_expand (fate_withObject shown body) (alike_relocate t body) _ expands
  refine ⟨expanded', ?_, alike⟩
  rw [expand_replaced word fate]
  dsimp only
  rw [expands']
  simp [expand, pure, Except.pure, bind, Except.bind]

end Names

end Macro

namespace Preprocess

variable {e : Setting} {s : State} {name t : Token} {body : List Token} {v : Int64}

theorem scope_withObject : e.scope (s.withObject e name body) = (e.scope s).withObject name.text body :=
  rfl

/-- A definition with a value records it. -/
theorem mem_constants_withObject {value : ConstValue}
    (records : MacroConstant.valueOf (e.scope s) body = some value) :
    ⟨name.text, value, name.loc⟩ ∈ (s.withObject e name body).constants := by
  have own : (⟨none, none, body⟩ : MacroDef).value? (e.scope s) = some value := records
  unfold State.withObject
  rw [edited_defineObject.2, Edit.constants, own]
  exact MacroConstant.mem_record.mpr (.inl rfl)

/-- The words that ask something in a condition and are no operands. -/
def isQuery (text : String) : Bool :=
  text = "defined" || Condition.includeQueries.contains text || Condition.featureQueries.contains text

theorem resolveQueries_name (isDefined isHeader : String → Bool) (plain : isQuery t.text = false) :
    Condition.resolveQueries isDefined isHeader [t] = .ok [t] := by
  simp only [isQuery, Bool.or_eq_false_iff, decide_eq_false_iff_not] at plain
  obtain ⟨⟨noDefined, noInclude⟩, noFeature⟩ := plain
  rw [Condition.resolveQueries, if_neg noDefined, noInclude, noFeature, Bool.or_false,
    if_neg Bool.false_ne_true, Condition.resolveQueries]
  rfl

/-- A condition that is a name has the value of what the name expands to. -/
theorem outcome_condition_name {hash : Token} {expanded : List Token} (plain : isQuery t.text = false)
    (expands : Macro.expand (e.scope s) [] [t] = .ok expanded)
    (value : Condition.evaluate expanded = some v) :
    outcome (condition e hash [t]) s = (.ok (v ≠ 0), s) := by
  unfold condition
  rw [outcome_bind, outcome_get]
  simp only [resolveQueries_name _ _ plain, expands]
  simp only [outcome_bind]
  have lifted : outcome (liftM (Except.ok expanded : Except FatalError (List Token)) : Step (List Token)) s =
      (.ok expanded, s) := rfl
  rw [lifted]
  simp only [value]
  rfl

theorem outcome_define_object {hash : Token} (isWord : name.isWord = true)
    (objectLike : ∀ t ∈ body.head?, (t.is .lparen && !t.spaced) = false) :
    outcome (define e hash (name :: body)) s = (.ok (), s.withObject e name body) := by
  simp only [define, isWord, Bool.not_true, Bool.false_eq_true, if_false]
  cases body with
  | nil => rfl
  | cons t ts =>
    simp only [objectLike t rfl, Bool.false_eq_true, if_false]
    rfl

/-- A definition records an integer for a name. If the name meant nothing before, or the body has the same
value without that, and what the body expands to has no shift to the right, then the name has this
value as a condition. -/
theorem condition_of_constant {s' : State} {hash hash' : Token} (isWord : name.isWord = true)
    (objectLike : ∀ t ∈ body.head?, (t.is .lparen && !t.spaced) = false)
    (defined : outcome (define e hash (name :: body)) s = (.ok (), s'))
    (shown : (e.scope s).isStripped name.text = false)
    (records : MacroConstant.valueOf (e.scope s) body = some (.int v))
    (fresh : s.macros.get? name.text = none ∨
      MacroConstant.valueOf ((e.scope s).without name.text) body = some (.int v))
    (shiftFree : ∀ expanded, Macro.expand ((e.scope s).without name.text) [] body = .ok expanded →
      Condition.ShiftFree expanded)
    (word : t.isWord = true) (named : t.text = name.text) :
    ⟨name.text, .int v, name.loc⟩ ∈ s'.constants ∧
    (∃ expanded, Macro.expand (e.scope s') [] [t] = .ok expanded ∧
      Condition.evaluate expanded = some v) ∧
    (isQuery t.text = false → outcome (condition e hash' [t]) s' = (.ok (v ≠ 0), s')) := by
  rw [outcome_define_object isWord objectLike] at defined
  cases defined
  have value : MacroConstant.valueOf ((e.scope s).without name.text) body = some (.int v) := by
    rcases fresh with unknown | same
    · have unchanged : (e.scope s).without name.text = e.scope s := Macro.without_of_unknown unknown
      rw [unchanged, records]
    · exact same
  obtain ⟨expanded, expands, value⟩ := MacroConstant.evaluate_of_valueOf value
  have free := shiftFree expanded expands
  rw [← named] at shown expands
  obtain ⟨expanded', expands', alike⟩ := Macro.expand_name word shown expands
  have value' := Condition.evaluate_of_face value free alike.faces
  rw [named, ← scope_withObject] at expands'
  exact ⟨mem_constants_withObject records, ⟨expanded', expands', value'⟩,
    fun plain => outcome_condition_name plain expands' value'⟩

/-! ### Single definitions -/

/-- The tokens of a definition behind the word `define`, as they are read. -/
def definitionOf (text : String) : List Token := (lex "a.h" text).dropLast

/-- The name of a definition. -/
def nameOf (text : String) : Token := (definitionOf text).headD (.eofAt .synthetic)

/-- The body of a definition. -/
def bodyOf (text : String) : List Token := (definitionOf text).tail

/-- Only one macro is in force. -/
def onlyMacro (text : String) : State :=
  { macros := NameMap.empty.insert (nameOf text).text ⟨none, none, bodyOf text⟩ }

/-- Nothing is included. -/
def noSources : Setting := { sources := .ofList [], config := {} }

/-- The token that begins a directive. -/
def hash : Token := .synthetic (.punct .hash) "#"

theorem condition_of_constant_doubled :
    ∃ s', outcome (define noSources hash (nameOf "X (N * 2 - 1)" :: bodyOf "X (N * 2 - 1)"))
        (onlyMacro "N 4") = (.ok (), s') ∧
      s'.constants.map (fun c => (c.name, c.value)) = [("X", .int 7)] ∧
      outcome (condition noSources hash [nameOf "X"]) s' = (.ok true, s') := by
  have isWord : (nameOf "X (N * 2 - 1)").isWord = true := by decide +kernel
  have objectLike : ∀ t ∈ (bodyOf "X (N * 2 - 1)").head?, (t.is .lparen && !t.spaced) = false := by
    decide +kernel
  have defined : outcome (define noSources hash (nameOf "X (N * 2 - 1)" :: bodyOf "X (N * 2 - 1)"))
      (onlyMacro "N 4") = (.ok (), _) := outcome_define_object isWord objectLike
  have records : MacroConstant.valueOf (noSources.scope (onlyMacro "N 4")) (bodyOf "X (N * 2 - 1)") =
      some (.int 7) := by cbv
  have fresh : ((onlyMacro "N 4").macros.get? (nameOf "X (N * 2 - 1)").text).isNone = true := by cbv
  have shiftFree : (Macro.expand ((noSources.scope (onlyMacro "N 4")).without
      (nameOf "X (N * 2 - 1)").text) [] (bodyOf "X (N * 2 - 1)")).toOption.all
      (fun expanded => decide (Condition.ShiftFree expanded)) = true := by cbv
  have word : (nameOf "X").isWord = true := by decide +kernel
  obtain ⟨-, -, holds⟩ := condition_of_constant isWord objectLike defined rfl records
    (.inl (Option.isNone_iff_eq_none.mp fresh))
    (fun expanded expands => by rw [expands] at shiftFree; exact of_decide_eq_true shiftFree)
    word (by decide +kernel)
  exact ⟨_, defined, by cbv, holds (by decide +kernel)⟩

/-- The two `>` of a shift are no longer adjacent when they have been moved to where the name stands. -/
theorem shift_lost :
    (nameOf "X (256 >> 2)").isWord = true ∧
      MacroConstant.valueOf ⟨.empty, []⟩ (bodyOf "X (256 >> 2)") = some (.int 64) ∧
      (Macro.expand (Macro.Scope.withObject ⟨.empty, []⟩ "X" (bodyOf "X (256 >> 2)")) []
        [nameOf "X (256 >> 2)"]).toOption.bind Condition.evaluate = none := by
  refine ⟨by decide +kernel, by cbv, by cbv⟩

/-- A body that uses its own older definition is worth something else as a condition. -/
theorem older_definition_lost :
    MacroConstant.valueOf (noSources.scope (onlyMacro "N 1")) (bodyOf "N (1 - N)") = some (.int 0) ∧
      (Macro.expand ((noSources.scope (onlyMacro "N 1")).withObject "N" (bodyOf "N (1 - N)")) []
        [nameOf "N"]).toOption.bind Condition.evaluate = some 1 := by
  refine ⟨by cbv, by cbv⟩

end Preprocess

end HeaderDecl
