import HeaderDecl.Proofs.DeclaratorReading

/-!
The suffixes of a declarator are read back from their spellings: arrays with sizes in decimal, and
parameter lists.
-/

namespace HeaderDecl

/-! ### Numbers in decimal -/

namespace Literal

theorem readDigits_of_digits {cs : List Char} (all : ∀ c ∈ cs, c.isDigit = true) (n : Nat) :
    readDigits 10 n cs = some (Nat.ofDigitChars 10 cs n) := by
  induction cs generalizing n with
  | nil => rfl
  | cons c cs ih =>
    have digit := all c (by simp)
    have small : c.toNat - '0'.toNat < 10 := by
      have zero : '0'.toNat = 48 := rfl
      have bounds : '0'.toNat ≤ c.toNat ∧ c.toNat ≤ 57 := Char.isDigit_iff_toNat.1 digit
      omega
    have value : digitValue 10 c = some (c.toNat - '0'.toNat) := by
      simpa [digitValue, letterValue, digit] using small
    rw [readDigits, value, Option.bind_some, ih fun d mem => all d (by simp [mem])]
    rfl

theorem head?_toDigits {n : Nat} (pos : 0 < n) : (Nat.toDigits 10 n).head? ≠ some '0' := by
  induction n using Nat.strongRecOn with
  | ind n ih =>
    by_cases small : n < 10
    · rw [Nat.toDigits_of_lt_base small]
      have digit : ∀ d : Fin 10, 0 < d.val → [Nat.digitChar d.val].head? ≠ some '0' := by decide
      exact digit ⟨n, small⟩ pos
    · rw [Nat.toDigits_of_base_le (by decide) (by omega)]
      have front := ih (n / 10) (by omega) (by omega)
      rw [List.head?_append_of_ne_nil _ (toDigits_ne_nil _)]
      exact front

theorem radixOf_toDigits (n : Nat) : radixOf (Nat.toDigits 10 n) = (10, Nat.toDigits 10 n) := by
  by_cases pos : 0 < n
  · have first := head?_toDigits pos
    unfold radixOf
    split <;> simp_all
  · obtain rfl : n = 0 := by omega
    rfl

theorem trimEnd_of_digits {cs : List Char} (all : ∀ c ∈ cs, c.isDigit = true) :
    trimEnd isIntSuffix cs = cs := by
  have kept : ∀ c ∈ cs.reverse.head?, isIntSuffix c = false := by
    intro c last
    have digit := all c (List.mem_reverse.1 (List.mem_of_mem_head? last))
    by_contra suffix
    simp only [isIntSuffix, Bool.not_eq_false, Bool.or_eq_true, beq_iff_eq] at suffix
    rcases suffix with ((((rfl | rfl) | rfl) | rfl) | rfl) | rfl <;> exact absurd digit (by decide)
  unfold trimEnd
  have same := (@takeWhile_append_of_stops _ _ [] (by simp) kept).2
  rw [List.nil_append] at same
  rw [same, List.reverse_reverse]

/-- A number in decimal is read back. -/
theorem int?_toDigits {n : Nat} (small : n < 2 ^ 64) :
    int? (String.ofList (Nat.toDigits 10 n)) = some (Int64.ofNat n) := by
  have all : ∀ c ∈ Nat.toDigits 10 n, c.isDigit = true := fun c =>
    Nat.isDigit_of_mem_toDigits (by decide) (by decide)
  have noSeparator : (Nat.toDigits 10 n).filter (· ≠ '\'') = Nat.toDigits 10 n := by
    rw [List.filter_eq_self]
    intro c mem
    have digit := all c mem
    simp only [ne_eq, decide_not, Bool.not_eq_true', decide_eq_false_iff_not]
    rintro rfl
    exact absurd digit (by decide)
  have noSign : ∀ ds, Nat.toDigits 10 n ≠ '+' :: ds := by
    intro ds eq
    exact absurd (all '+' (by simp [eq])) (by decide)
  have nat : readNat 10 (Nat.toDigits 10 n) = some n := by
    have some_ : (Nat.toDigits 10 n).isEmpty = false := by simp
    unfold readNat
    split
    · exact absurd ‹_› (noSign _)
    · simp only [some_, Bool.false_eq_true, if_false, readDigits_of_digits all,
        Nat.ofDigitChars_toDigits (show 1 < 10 by decide) (Nat.le_refl 10)]
      simpa [Option.filter, UInt64.size] using small
  unfold int?
  rw [String.toList_ofList, trimEnd_of_digits all, noSeparator, radixOf_toDigits]
  simp [nat]

end Literal

namespace Grammar

open HeaderDecl.Grammar.Parser

variable {c : Context} {s rest u : List Token} {t n : Token} {P : Nested} {m : Nat}

/-! ### Arrays -/

theorem follows_array {size : Option (Fin (2 ^ 63))} {ts : List Token}
    (spelled : Spelled ts (arrayWords size)) : Follows (ts ++ rest) := by
  cases size with
  | none =>
    obtain - | ⟨⟨kind, -⟩, - | ⟨⟨kind', -⟩, ⟨⟩⟩⟩ := spelled
    exact .array kind (by simp [kind', Word.kind])
  | some size =>
    obtain - | ⟨⟨kind, -⟩, - | ⟨⟨kind', -⟩, -⟩⟩ := spelled
    exact .array kind (by simp [kind', Word.kind])

theorem reads_value {close : Token} (number : t.kind = .number) (closes : close.kind = .punct .rbracket) :
    (value [.rbracket]).Reads c (t :: close :: s) (valueOf [t]) (close :: s) := by
  have until_ : tokensUntil [.rbracket] 0 (t :: close :: s) = [t] := by
    simp [tokensUntil, Token.isClosing, Token.isOpening, Token.is, depthAfter, number, closes]
  simp [value, skipTo, until_, and_assoc]

theorem suffixWords_array (size : Option (Fin (2 ^ 63))) :
    SuffixWords (arrayWords size) (.array (size.map fun n => .int (Int64.ofNat n.val))) where
  reads := by
    intro m c ts rest u sufs enough spelled follows behind
    have noAttribute := (@follows_array rest _ _ spelled).attributeTokens_eq
    have shorter : rest.length < (ts ++ rest).length := by
      have pos := spelled.length_eq
      simp only [List.length_append]
      cases size <;> simp [arrayWords] at pos <;> omega
    refine reads_collect_more [_] rest ?_ shorter behind
    -- One round of the loop reads the brackets, with a number between them or without.
    cases size with
    | none =>
      obtain - | ⟨⟨kind, -⟩, - | ⟨⟨closes, -⟩, ⟨⟩⟩⟩ := spelled
      simp only [List.cons_append, List.nil_append] at noAttribute ⊢
      simp [reads_skipAttributes noAttribute, Token.is, kind, closes, Word.kind, and_assoc]
    | some size =>
      obtain - | ⟨⟨kind, -⟩, - | @⟨n, _, _, _, ⟨number, text⟩,
        - | @⟨close, _, _, _, ⟨closes, -⟩, ⟨⟩⟩⟩⟩ := spelled
      have small : size.val < 2 ^ 64 := Nat.lt_trans size.isLt (by decide)
      have int : Literal.int? n.text = some (Int64.ofNat size) := by
        rw [text]
        exact Literal.int?_toDigits small
      have size_ : valueOf [n] = .int (Int64.ofNat size) := by
        simp [valueOf, number, Word.kind, int]
      have value_ := @reads_value c rest n close number closes
      rw [size_] at value_
      simp only [List.cons_append, List.nil_append] at noAttribute ⊢
      simp only [reads_bind, reads_skipAttributes noAttribute]
      refine ⟨(), _, rfl, true, n :: close :: rest, by simp [Token.is, kind, Word.kind], ?_⟩
      simp only [if_true, reads_bind, reads_isNext]
      refine ⟨false, n :: close :: rest, by simp [Token.is, number, Word.kind], ?_⟩
      simp only [Bool.false_eq_true, if_false, reads_bind, reads_map]
      refine ⟨_, close :: rest, ⟨_, value_, rfl⟩, ?_⟩
      simp [Token.is, closes, Word.kind, and_assoc]
  follows := follows_array
  open_ := by cases size <;> simp [arrayWords]

/-! ### Parameter lists -/

/-- The words of a parameter. They begin with a keyword, and they are no lone `void` unless that is all
there is. -/
structure ParameterWords (words : List Word) (param : Parameter TypeExpr) : Prop where
  reads : ∀ {m : Nat} {c : Context} {ts rest : List Token} {t : Token} {p : Punct},
    words.length ≤ m → Spelled ts words → t.kind = .punct p → p = .comma ∨ p = .rparen →
      (parameter (.upTo m)).Reads c (ts ++ t :: rest) param (t :: rest)
  starts : ∃ k own, words = .kw k :: own ∧ k ≠ .attributeSpec ∧
    (k = .void → own.head? ≠ some (.punct .rparen))

/-- What stands between the parentheses of a parameter list. -/
def parameterEntries (params : List (List Word)) (variadic : Bool) : List Word :=
  [Word.punct .comma].intercalate (params ++ if variadic then [[.punct .ellipsis]] else [])

/-- One round of the loop over the entries of a parameter list. -/
theorem entry_reads {words : List Word} {param : Parameter TypeExpr} {ts : List Token} {p : Punct}
    (h : ParameterWords words param) (enough : words.length ≤ m) (spelled : Spelled ts words)
    (kind : t.kind = .punct p) (ends : p = .comma ∨ p = .rparen) :
    (do
      if ← atEndOr [.rparen] then return ([], false)
      if ← take .ellipsis then return ([none], false)
      let p ← parameter (.upTo m)
      return ([some p], ← take .comma)).Reads c (ts ++ t :: rest)
        ([some param], p == Punct.comma) (if p == Punct.comma then rest else t :: rest) := by
  have reads := @ParameterWords.reads words param h m c ts rest t p enough spelled kind ends
  obtain ⟨k, own, rfl, -, -⟩ := h.starts
  obtain - | @⟨n, _, ts, _, ⟨keyword, -⟩, -⟩ := spelled
  simp only [reads_bind, reads_atEndOr]
  refine ⟨false, n :: ts ++ t :: rest, by simp [Token.is, Token.isEof, keyword, Word.kind], ?_⟩
  simp only [Bool.false_eq_true, if_false, reads_bind]
  refine ⟨false, n :: ts ++ t :: rest, by simp [Token.is, keyword, Word.kind], ?_⟩
  simp only [Bool.false_eq_true, if_false, reads_bind]
  refine ⟨param, t :: rest, reads, ?_⟩
  rcases ends with rfl | rfl <;> simp [Token.is, kind, and_assoc]

theorem parameterEntries_cons {own : List Word} {words : List (List Word)} {variadic : Bool}
    (more : words ++ (if variadic then [[Word.punct .ellipsis]] else []) ≠ []) :
    parameterEntries (own :: words) variadic =
      own ++ .punct .comma :: parameterEntries words variadic := by
  unfold parameterEntries
  rw [List.cons_append, List.intercalate_cons_of_ne_nil more]
  simp

/-- The loop over the entries of a parameter list. -/
theorem entries_read {words : List (List Word)} {params : List (Parameter TypeExpr)}
    {variadic : Bool} {ts : List Token} {close : Token}
    (each : List.Forall₂ ParameterWords words params)
    (enough : (parameterEntries words variadic).length ≤ m)
    (spelled : Spelled ts (parameterEntries words variadic)) (closes : close.kind = .punct .rparen) :
    (collect do
      if ← atEndOr [.rparen] then return ([], false)
      if ← take .ellipsis then return ([none], false)
      let p ← parameter (.upTo m)
      return ([some p], ← take .comma)).Reads c (ts ++ close :: rest)
        (params.map some ++ if variadic then [none] else []) (close :: rest) := by
  -- Induction on the parameters: each but the last has a comma behind it, which keeps the loop going.
  induction each generalizing ts with
  | nil =>
    cases variadic with
    | false =>
      cases spelled
      refine reads_collect_stop ?_
      simp [Token.is, closes, and_assoc]
    | true =>
      obtain - | @⟨n, _, _, _, ⟨kind, -⟩, ⟨⟩⟩ := spelled
      refine reads_collect_stop ?_
      simp [Token.is, Token.isEof, kind, Word.kind, and_assoc]
  | @cons own param words params first others ih =>
    by_cases more : words ++ (if variadic then [[Word.punct .ellipsis]] else []) = []
    · rw [List.append_eq_nil_iff] at more
      obtain ⟨rfl, none_⟩ := more
      obtain rfl : variadic = false := by
        cases variadic
        · rfl
        · cases none_
      cases others
      have alone : parameterEntries [own] false = own := List.intercalate_singleton
      rw [alone] at enough spelled
      exact reads_collect_stop (entry_reads first enough spelled closes (.inr rfl))
    · rw [parameterEntries_cons more] at enough spelled
      obtain ⟨front, back, rfl, spelledOwn, spelledOthers⟩ := spelled.exists_append
      obtain - | @⟨comma, _, back, _, ⟨kind, -⟩, spelledOthers⟩ := spelledOthers
      simp only [List.length_append, List.length_cons] at enough
      rw [List.append_assoc, List.map_cons, List.cons_append]
      have enoughOwn : own.length ≤ m := by omega
      refine reads_collect_more [some param] (back ++ close :: rest)
        (entry_reads first enoughOwn spelledOwn kind (.inl rfl)) ?_ (ih (by omega) spelledOthers)
      simp only [List.length_append, List.length_cons]
      omega

section Entries

variable {words : List (List Word)} {params : List (Parameter TypeExpr)} {variadic : Bool}

/-- The first word between parentheses does not make them group a declarator. -/
theorem entries_head (each : List.Forall₂ ParameterWords words params) :
    ∃ w ws, parameterEntries words variadic ++ [.punct .rparen] = w :: ws ∧
      (w = .punct .rparen ∨ w = .punct .ellipsis ∨ ∃ k ≠ .attributeSpec, w = .kw k) := by
  cases each with
  | nil => cases variadic <;> exact ⟨_, _, rfl, by simp⟩
  | @cons own param words params first others =>
    obtain ⟨k, own, rfl, other, -⟩ := first.starts
    by_cases more : words ++ (if variadic then [[Word.punct .ellipsis]] else []) = []
    · rw [parameterEntries, List.cons_append, more, List.intercalate_singleton]
      exact ⟨_, _, rfl, .inr (.inr ⟨k, other, rfl⟩)⟩
    · rw [parameterEntries_cons more]
      exact ⟨_, _, rfl, .inr (.inr ⟨k, other, rfl⟩)⟩

/-- The parentheses do not hold a lone `void`, which would stand for no parameters. -/
theorem entries_not_loneVoid (each : List.Forall₂ ParameterWords words params)
    (notLone : variadic = false → words ≠ [[.kw .void]]) :
    ∀ ws, parameterEntries words variadic ++ [.punct .rparen] ≠ .kw .void :: .punct .rparen :: ws := by
  intro ws eq
  cases each with
  | nil => cases variadic <;> cases eq
  | @cons own param words params first others =>
    obtain ⟨k, own, rfl, -, second⟩ := first.starts
    by_cases more : words ++ (if variadic then [[Word.punct .ellipsis]] else []) = []
    · rw [parameterEntries, List.cons_append, more, List.intercalate_singleton] at eq
      cases own with
      | nil =>
        cases eq
        rw [List.append_eq_nil_iff] at more
        obtain ⟨rfl, none_⟩ := more
        exact notLone (by cases variadic <;> simp_all) rfl
      | cons w own =>
        cases eq
        exact second rfl rfl
    · rw [parameterEntries_cons more] at eq
      cases own with
      | nil => cases eq
      | cons w own =>
        cases eq
        exact second rfl rfl

/-- Either the first word is no `void`, or a word other than the closing parenthesis follows it. -/
theorem parens_not_loneVoid {inner : List Word} {ts : List Token}
    (spelled : Spelled ts (inner ++ [.punct .rparen]))
    (other : ∀ ws, inner ++ [.punct .rparen] ≠ .kw .void :: .punct .rparen :: ws) :
    ((next c (ts ++ rest)).isKw .void && ((ts ++ rest)[1]?.getD c.eof).is .rparen) = false := by
  rw [Bool.eq_false_iff]
  intro lone
  simp only [Bool.and_eq_true, Token.isKw, Token.is, beq_iff_eq] at lone
  obtain ⟨void, paren⟩ := lone
  cases inner with
  | nil =>
    obtain - | ⟨⟨kind, -⟩, ⟨⟩⟩ := spelled
    simp [kind, Word.kind] at void
  | cons first inner =>
    obtain ⟨second, more, eq⟩ : ∃ w ws, inner ++ [Word.punct .rparen] = w :: ws := by
      cases inner <;> exact ⟨_, _, rfl⟩
    rw [List.cons_append, eq] at spelled other
    obtain - | ⟨⟨kind, -⟩, - | ⟨⟨kind', -⟩, -⟩⟩ := spelled
    have isVoid : first.kind = .kw .void := kind.symm.trans void
    have isParen : second.kind = .punct .rparen := kind'.symm.trans paren
    obtain rfl : first = .kw .void := by cases first <;> cases isVoid; rfl
    obtain rfl : second = .punct .rparen := by cases second <;> cases isParen; rfl
    exact other more rfl

end Entries

theorem functionTail_stop (follows : Follows s) (suffix : FunctionSuffix) :
    (functionTail P suffix).Reads c s suffix s := by
  refine reads_loop_stop ?_
  have noAmp : (next c s).is .amp = false := follows.is_eq_false (by decide)
  have noAmpAmp : (next c s).is .ampAmp = false := follows.is_eq_false (by decide)
  have noArrow : (next c s).is .arrow = false := follows.is_eq_false (by decide)
  simp [reads_skipAttributes follows.attributeTokens_eq, follows.isKw_eq_false,
    follows.isWordIn_eq_false, noAmp, noAmpAmp, noArrow]

theorem parameters_read {words : List (List Word)} {params : List (Parameter TypeExpr)}
    {variadic : Bool} {ts : List Token} (each : List.Forall₂ ParameterWords words params)
    (notLone : variadic = false → words ≠ [[.kw .void]])
    (enough : (parameterEntries words variadic).length ≤ m)
    (spelled : Spelled ts (parameterEntries words variadic ++ [.punct .rparen])) :
    (parameters (.upTo m)).Reads c (ts ++ rest) { params, variadic } rest := by
  have lone := @parens_not_loneVoid c rest _ ts spelled (entries_not_loneVoid each notLone)
  obtain ⟨inner, close, rfl, spelledInner, spelledClose⟩ := spelled.exists_append
  obtain - | @⟨close, _, _, _, ⟨closes, -⟩, ⟨⟩⟩ := spelledClose
  have entries := @entries_read c rest m words params variadic inner close each enough
    spelledInner closes
  rw [List.append_assoc, List.singleton_append] at lone ⊢
  simp only [parameters, reads_bind, reads_isNextKw, reads_nth]
  refine ⟨_, _, ⟨rfl, rfl⟩, _, _, ⟨rfl, rfl⟩, ?_⟩
  simp only [lone, Bool.false_eq_true, if_false, reads_bind]
  refine ⟨_, _, entries, close, rest, by simp [Token.is, closes, Word.kind], ?_⟩
  cases variadic <;> simp [Function.comp_def]

theorem suffixWords_function {words : List (List Word)} {params : List (Parameter TypeExpr)}
    {variadic : Bool} (each : List.Forall₂ ParameterWords words params)
    (notLone : variadic = false → words ≠ [[.kw .void]]) :
    SuffixWords (parameterWords words variadic) (.function { params, variadic }) where
  reads := by
    intro m c ts rest u sufs enough spelled follows behind
    obtain - | @⟨t, _, ts, _, ⟨kind, -⟩, spelledRest⟩ := spelled
    have spelledBoth : Spelled ts (parameterEntries words variadic ++ [.punct .rparen]) := spelledRest
    have noAttribute : attributeTokens (t :: ts ++ rest) = [] :=
      attributeTokens_of_punct kind (by decide)
    have enoughInner : (parameterEntries words variadic).length ≤ m := by
      simp only [parameterWords, List.length_append, List.length_cons] at enough
      unfold parameterEntries
      omega
    have list := @parameters_read c rest m words params variadic ts each notLone enoughInner spelledBoth
    have shorter : rest.length < (t :: ts ++ rest).length := by
      rw [List.cons_append, List.length_cons, List.length_append]
      omega
    refine reads_collect_more [_] rest ?_ shorter behind
    simp only [reads_bind, reads_skipAttributes noAttribute]
    refine ⟨(), _, rfl, false, t :: ts ++ rest, by simp [Token.is, kind, Word.kind], ?_⟩
    simp only [Bool.false_eq_true, if_false, reads_bind]
    refine ⟨true, ts ++ rest, by simp [Token.is, kind, Word.kind], ?_⟩
    simp only [if_true, reads_bind]
    exact ⟨_, rest, list, _, rest, functionTail_stop follows _, by simp⟩
  follows := by
    intro ts rest spelled
    obtain - | @⟨t, _, ts, _, ⟨kind, -⟩, spelledRest⟩ := spelled
    have spelledBoth : Spelled ts (parameterEntries words variadic ++ [.punct .rparen]) := spelledRest
    obtain ⟨w, ws, eq, first⟩ := @entries_head words params variadic each
    rw [eq] at spelledBoth
    obtain - | @⟨n, _, ts, _, ⟨kind', -⟩, -⟩ := spelledBoth
    refine .function kind ?_
    rw [kind']
    rcases first with rfl | rfl | ⟨k, other, rfl⟩
    · simp [Word.kind]
    · simp [Word.kind]
    · simp [Word.kind, other]
  open_ := by simp [parameterWords]

end Grammar

end HeaderDecl
