import HeaderDecl.Proofs.DeclaratorReading

/-!
Specifiers in which a name stands in place of an arithmetic type. What follows the type is read in the
same way, unless the name is taken for a macro or goes on there.
-/

namespace HeaderDecl.Grammar

open HeaderDecl.Grammar.Parser

variable {c : Context} {s u : List Token} {t : Token} {P Q : Nested} {record record' : Option String}
  {specs specs' : Specifiers} {more : Bool}

/-! ### Specifiers behind a type -/

/-- Specifiers with some type as their base. -/
def Specifiers.naming (specs : Specifiers) (ty : TypeExpr) : Specifiers :=
  { specs with primitives := [], base := some ty }

/-- Specifiers that do not differ in what gives them a type. -/
def SameType (specs specs' : Specifiers) : Prop :=
  specs'.primitives = specs.primitives ∧ specs'.base = specs.base ∧ specs'.defined = specs.defined

theorem attributeTokens_afterAttributes (s : Cursor) : attributeTokens s.afterAttributes.ahead = [] := by
  fun_induction Cursor.afterAttributes s with
  | case1 s none_ => exact none_
  | case2 s t ts some_ ih => exact ih

theorem specifierStep_behind {x : Specifiers × Bool} :
    (specifierStep P record specs).Reads c s x u ↔
      (specifierStep P record specs).Reads c (Cursor.ofTokens s).afterAttributes.ahead x u := by
  have none_ := attributeTokens_afterAttributes (.ofTokens s)
  simp only [specifierStep, reads_bind, reads_skipAttributes none_, reads_skipAttributes_iff]

/-- The keywords that only mark a declaration, apart from the one for linkage. -/
def markers : List Keyword :=
  [.typedef, .static, .inlineKw, .virtual, .explicit, .friend, .mutable, .constexpr, .register,
    .restrict, .const, .volatile]

/-- Specifiers behind a keyword that gives no type. -/
def Specifiers.marked (specs : Specifiers) : Keyword → Specifiers
  | .typedef => { specs with isTypedef := true }
  | .externKw => { specs with isExtern := true }
  | .static => { specs with isStatic := true }
  | .inlineKw => { specs with isInline := true }
  | .virtual => { specs with isVirtual := true }
  | .explicit => { specs with isExplicit := true }
  | .friend => { specs with isFriend := true }
  | .const => { specs with qualifiers := { specs.qualifiers with isConst := true } }
  | .volatile => { specs with qualifiers := { specs.qualifiers with isVolatile := true } }
  | _ => specs

theorem sameType_marked (specs : Specifiers) (k : Keyword) : SameType specs (specs.marked k) := by
  cases k <;> exact ⟨rfl, rfl, rfl⟩

theorem naming_marked (specs : Specifiers) (k : Keyword) (ty : TypeExpr) :
    (specs.naming ty).marked k = (specs.marked k).naming ty := by
  cases k <;> rfl

section Steps

variable {k : Keyword} (noAttribute : attributeTokens s = [])

include noAttribute

theorem specifierStep_marker (kind : (next c s).kind = .kw k) (marks : k ∈ markers) :
    (specifierStep P record specs).Reads c s (specs.marked k, true) (s.drop 1) := by
  have skips {a : Unit} {mid : List Token} : skipAttributes.Reads c s a mid ↔ s = mid :=
    reads_skipAttributes noAttribute
  simp only [markers, List.mem_cons, List.not_mem_nil, or_false] at marks
  rcases marks with rfl | rfl | rfl | rfl | rfl | rfl | rfl | rfl | rfl | rfl | rfl | rfl <;>
    simp [specifierStep, skips, kind, Specifiers.marked]

theorem specifierStep_linkage (kind : (next c s).kind = .kw .externKw) :
    (specifierStep P record specs).Reads c s (specs.marked .externKw, true)
      (if (s[1]?.getD c.eof).kind == .string then s.tail.tail else s.tail) := by
  have skips {a : Unit} {mid : List Token} : skipAttributes.Reads c s a mid ↔ s = mid :=
    reads_skipAttributes noAttribute
  by_cases linkage : (s[1]?.getD c.eof).kind = .string <;>
    simp [specifierStep, skips, kind, linkage, Specifiers.marked, and_assoc]

theorem specifierStep_ignored (kind : (next c s).kind = .identifier)
    (ignored : (next c s).text ∈ ignoredSpecifiers) :
    (specifierStep P record specs).Reads c s (specs, true) (s.drop 1) := by
  have skips {a : Unit} {mid : List Token} : skipAttributes.Reads c s a mid ↔ s = mid :=
    reads_skipAttributes noAttribute
  simp [specifierStep, skips, kind, ignored]

/-- Behind a type all other keywords end the specifiers, arithmetic ones only if that type is not
arithmetic. -/
theorem specifierStep_stop_keyword (kind : (next c s).kind = .kw k) (typed : specs.hasType = true)
    (other : k ∉ markers) (notExtern : k ≠ .externKw)
    (foreign : k.isPrimitive = true → ¬(specs.base = none ∧ specs.defined = none)) :
    (specifierStep P record specs).Reads c s (specs, false) s := by
  have skips {a : Unit} {mid : List Token} : skipAttributes.Reads c s a mid ↔ s = mid :=
    reads_skipAttributes noAttribute
  cases k
  case externKw => exact absurd rfl notExtern
  case typedef | static | inlineKw | virtual | explicit | friend | mutable | constexpr | register |
      restrict | const | volatile => exact absurd (by decide) other
  case void | bool | char | short | int | long | float | double | signed | unsigned =>
    simp [specifierStep, skips, kind, foreign rfl, Keyword.isPrimitive, and_assoc]
  all_goals simp [specifierStep, skips, kind, typed, Keyword.isPrimitive]

theorem specifierStep_stop_other (typed : specs.hasType = true)
    (kind : ∀ k, (next c s).kind ≠ .kw k)
    (kept : (next c s).kind = .identifier → (next c s).text ∉ ignoredSpecifiers) :
    (specifierStep P record specs).Reads c s (specs, false) s := by
  have skips {a : Unit} {mid : List Token} : skipAttributes.Reads c s a mid ↔ s = mid :=
    reads_skipAttributes noAttribute
  cases is : (next c s).kind with
  | kw k => exact absurd is (kind k)
  | identifier => exact specifierStep_stop typed (by simp [endsSpecifiers, is, kept is]) noAttribute
  | punct p => exact specifierStep_stop typed (by simp [endsSpecifiers, is]) noAttribute
  | _ => simp [specifierStep, skips, is]

end Steps

/-- Behind a type a specifier changes nothing that gives a type, apart from a further arithmetic keyword,
and it does not matter which type that is. -/
theorem specifierStep_typed (typed : specs.hasType = true)
    (h : (specifierStep P record specs).Reads c s (specs', more) u) :
    (specifierStep Q record' specs).Reads c s (specs', more) u ∧
      ((∃ k, specs' = { specs with primitives := k :: specs.primitives }) ∨
        SameType specs specs' ∧ ∀ ty,
          (specifierStep Q record' (specs.naming ty)).Reads c s (specs'.naming ty, more) u) := by
  have typed' (ty : TypeExpr) : (specs.naming ty).hasType = true := by
    simp [Specifiers.hasType, Specifiers.naming]
  have noAttribute := attributeTokens_afterAttributes (.ofTokens s)
  rw [specifierStep_behind] at h
  simp only [@specifierStep_behind c s]
  generalize (Cursor.ofTokens s).afterAttributes.ahead = s at h noAttribute
  have settle {after : Specifiers} {goes : Bool} {v : List Token}
      (step : ∀ {P record}, (specifierStep P record specs).Reads c s (after, goes) v)
      (same : SameType specs after)
      (named : ∀ ty, (specifierStep Q record' (specs.naming ty)).Reads c s (after.naming ty, goes) v) :
      (specifierStep Q record' specs).Reads c s (specs', more) u ∧
        ((∃ k, specs' = { specs with primitives := k :: specs.primitives }) ∨
          SameType specs specs' ∧ ∀ ty,
            (specifierStep Q record' (specs.naming ty)).Reads c s (specs'.naming ty, more) u) := by
    obtain ⟨⟨⟩, rfl⟩ := h.unique step
    exact ⟨step, .inr ⟨same, named⟩⟩
  have unchanged : SameType specs specs := ⟨rfl, rfl, rfl⟩
  -- Keywords that mark, the one for linkage, arithmetic ones, all others; then names and punctuators.
  by_cases keyword : ∃ k, (next c s).kind = .kw k
  · obtain ⟨k, kind⟩ := keyword
    by_cases marks : k ∈ markers
    · refine settle (specifierStep_marker noAttribute kind marks) (sameType_marked specs k) ?_
      intro ty
      rw [← naming_marked]
      exact specifierStep_marker noAttribute kind marks
    by_cases linkage : k = .externKw
    · subst linkage
      exact settle (specifierStep_linkage noAttribute kind) (sameType_marked specs _) fun ty =>
        specifierStep_linkage noAttribute kind
    by_cases arithmetic : k.isPrimitive = true ∧ specs.base = none ∧ specs.defined = none
    · obtain ⟨primitive, noBase, noBody⟩ := arithmetic
      obtain ⟨⟨⟩, rfl⟩ := h.unique (specifierStep_primitive kind noAttribute primitive noBase noBody)
      exact ⟨specifierStep_primitive kind noAttribute primitive noBase noBody, .inl ⟨k, rfl⟩⟩
    · have foreign : k.isPrimitive = true → ¬(specs.base = none ∧ specs.defined = none) :=
        fun primitive none_ => arithmetic ⟨primitive, none_⟩
      refine settle (specifierStep_stop_keyword noAttribute kind typed marks linkage foreign) unchanged ?_
      intro ty
      refine specifierStep_stop_keyword noAttribute kind (typed' ty) marks linkage ?_
      intro _ none_
      cases none_.1
  · have other : ∀ k, (next c s).kind ≠ .kw k := fun k kind => keyword ⟨k, kind⟩
    by_cases ignored : (next c s).kind = .identifier ∧ (next c s).text ∈ ignoredSpecifiers
    · exact settle (specifierStep_ignored noAttribute ignored.1 ignored.2) unchanged fun ty =>
        specifierStep_ignored noAttribute ignored.1 ignored.2
    · have kept : (next c s).kind = .identifier → (next c s).text ∉ ignoredSpecifiers :=
        fun name mem => ignored ⟨name, mem⟩
      exact settle (specifierStep_stop_other noAttribute typed other kept) unchanged fun ty =>
        specifierStep_stop_other noAttribute (typed' ty) other kept

/-- Further specifiers behind a type that is not made longer are the same behind any other type. -/
theorem specifiers_typed (typed : specs.hasType = true)
    (h : (loop (specifierStep P record) specs).Reads c s specs' u) :
    (loop (specifierStep Q record') specs).Reads c s specs' u ∧
      specs.primitives.length ≤ specs'.primitives.length ∧
      (specs'.primitives.length = specs.primitives.length → SameType specs specs' ∧ ∀ ty,
        (loop (specifierStep Q record') (specs.naming ty)).Reads c s (specs'.naming ty) u) := by
  -- Each round reads a token. The type is the same in all rounds unless one of them adds a keyword to it.
  induction size : s.length using Nat.strongRecOn generalizing s specs with
  | ind size_ ih =>
  subst size
  obtain ⟨mid, more, t, step, rest⟩ := reads_loop.1 h
  obtain ⟨same, change⟩ := @specifierStep_typed c s t P Q record record' specs mid more typed step
  cases more with
  | false =>
    obtain ⟨rfl, rfl⟩ := rest
    refine ⟨reads_loop_stop same, ?_⟩
    rcases change with ⟨k, rfl⟩ | ⟨sameType, named⟩
    · exact ⟨by simp, fun len => by simp at len⟩
    · exact ⟨by rw [sameType.1], fun _ => ⟨sameType, fun ty => reads_loop_stop (named ty)⟩⟩
  | true =>
    obtain ⟨shorter, rest⟩ := rest
    have typedMid : mid.hasType = true := by
      rcases change with ⟨k, rfl⟩ | ⟨⟨primitives, base, defined⟩, -⟩
      · simp [Specifiers.hasType]
      · simpa [Specifiers.hasType, primitives, base, defined] using typed
    obtain ⟨run, longer, unchanged⟩ := ih t.length shorter typedMid rest rfl
    refine ⟨reads_loop_more mid t same shorter run, ?_⟩
    rcases change with ⟨k, rfl⟩ | ⟨sameType, named⟩
    · -- Arithmetic keywords are never taken back.
      simp only [List.length_cons] at longer
      exact ⟨by omega, fun len => by omega⟩
    · rw [sameType.1] at longer unchanged
      refine ⟨longer, fun len => ?_⟩
      obtain ⟨⟨primitives, base, defined⟩, runs⟩ := unchanged len
      refine ⟨⟨primitives.trans sameType.1, base.trans sameType.2.1, defined.trans sameType.2.2⟩,
        fun ty => ?_⟩
      exact reads_loop_more _ t (named ty) shorter (runs ty)

/-! ### Abstract types without operators -/

/-- The punctuation that a declarator may begin with. -/
def declaratorPuncts : List Punct :=
  [.star, .amp, .ampAmp, .ellipsis, .colonColon, .tilde, .lparen, .lbracket]

/-- Where no declarator begins, nothing is declared. -/
theorem declarator_nothing (noAttribute : attributeTokens s = []) (noName : (next c s).kind ≠ .identifier)
    (noKeyword : (next c s).isKw .operator = false)
    (noPunct : ∀ p ∈ declaratorPuncts, (next c s).is p = false) :
    (declarator P).Reads c s ⟨none, false, false, next c s, []⟩ s := by
  obtain ⟨star, amp, ampAmp, ellipsis, colons, tilde, paren, bracket⟩ :
      (next c s).is .star = false ∧ (next c s).is .amp = false ∧ (next c s).is .ampAmp = false ∧
        (next c s).is .ellipsis = false ∧ (next c s).is .colonColon = false ∧
        (next c s).is .tilde = false ∧ (next c s).is .lparen = false ∧ (next c s).is .lbracket = false := by
    simpa [declaratorPuncts] using noPunct
  have noWord (words : List String) : (next c s).isWordIn words = false := by
    simp [Token.isWordIn, noName]
  have noOperator : isOperator (next c s) = false := by
    simp [isOperator, star, amp, ampAmp, ellipsis, noWord]
  have core : (declaratorCore P (next c s) false).Reads c s ⟨none, false, false, next c s, []⟩ s := by
    simp [declaratorCore, Grammar.isGrouping, paren, colons, tilde, noName, noKeyword, and_assoc]
  simp only [declarator, reads_bind, reads_peek]
  exact ⟨_, s, ⟨rfl, rfl⟩, _, s, pointerOps_stop noOperator noAttribute, _, s, core, [], s,
    suffixes_stop bracket paren noAttribute, by simp⟩

/-! ### Names in place of `int` -/

/-- Whether a name in front of some tokens is taken for a macro. -/
def takenForMacro (c : Context) (s : List Token) : Bool :=
  let first := next c s
  let second := s[1]?.getD c.eof
  first.is .lparen || (first.kind == .identifier &&
    (second.kind == .identifier || second.is .star || second.is .amp || second.is .ampAmp))

/-- Whether a name in front of some tokens goes on in them. -/
def goesOn (c : Context) (s : List Token) : Bool :=
  let second := s[1]?.getD c.eof
  (next c s).is .colonColon && (second.kind == .identifier || second.isKw .template)

/-- Whether a token begins neither a specifier behind a type nor a declarator. -/
def isForeign (t : Token) : Bool :=
  t.is .less || [Keyword.struct, .klass, .union, .enum, .typename].any t.isKw

theorem foreign_kind (foreign : isForeign t = true) :
    t.kind = .punct .less ∨ ∃ k ∈ [Keyword.struct, .klass, .union, .enum, .typename], t.kind = .kw k := by
  simpa [isForeign, Token.is, Token.isKw] using foreign

theorem foreign_attributeTokens (foreign : isForeign (next c s) = true) : attributeTokens s = [] := by
  cases s with
  | nil => rfl
  | cons t s =>
    rcases foreign_kind foreign with kind | ⟨k, mem, kind⟩
    · exact attributeTokens_of_punct kind (by decide)
    · exact attributeTokens_of_kw kind (by rintro rfl; simp at mem)

theorem foreign_is_eq_false (foreign : isForeign t = true) {p : Punct} (other : p ≠ .less) :
    t.is p = false := by
  rcases foreign_kind foreign with kind | ⟨k, mem, kind⟩
  · simpa [Token.is, kind] using other.symm
  · simp [Token.is, kind]

theorem foreign_not_identifier (foreign : isForeign t = true) : t.kind ≠ .identifier := by
  rcases foreign_kind foreign with kind | ⟨k, mem, kind⟩ <;> simp [kind]

theorem foreign_not_operator (foreign : isForeign t = true) : t.isKw .operator = false := by
  rcases foreign_kind foreign with kind | ⟨k, mem, kind⟩
  · simp [Token.isKw, kind]
  · have differs : k ≠ .operator := by rintro rfl; simp at mem
    simpa [Token.isKw, kind] using differs

theorem specifiers_stop_foreign (typed : specs.hasType = true) (foreign : isForeign (next c s) = true) :
    (loop (specifierStep P record) specs).Reads c s specs s := by
  have noAttribute := foreign_attributeTokens foreign
  refine reads_loop_stop ?_
  rcases foreign_kind foreign with kind | ⟨k, mem, kind⟩
  · exact specifierStep_stop typed (by simp [endsSpecifiers, kind]) noAttribute
  · refine specifierStep_stop_keyword noAttribute kind typed ?_ ?_ ?_ <;>
    · simp only [List.mem_cons, List.not_mem_nil, or_false] at mem
      rcases mem with rfl | rfl | rfl | rfl | rfl <;> simp +decide

theorem not_declarators_foreign {ds : List (Declarator × Tail)}
    (foreign : isForeign (next c s) = true) : ¬(declarators P).Reads c s ds u := by
  intro h
  have noAttribute := foreign_attributeTokens foreign
  have is (p : Punct) (other : p ≠ .less) := foreign_is_eq_false foreign other
  have empty : (declarator P).Reads c s ⟨none, false, false, next c s, []⟩ s := by
    refine declarator_nothing noAttribute (foreign_not_identifier foreign) (foreign_not_operator foreign) ?_
    exact fun p mem => is p fun same => by simp [same, declaratorPuncts] at mem
  have nothing : (tail ⟨none, false, false, next c s, []⟩).Reads c s {} s := by
    simp only [tail, reads_bind, reads_skipAttributes noAttribute]
    simp [Declarator.functionSuffix?, is, and_assoc]
  obtain ⟨_, _, _, step, -⟩ := reads_collect.1 h
  simp only [reads_bind] at step
  obtain ⟨d, mid, declared, last, mid', behind, rest⟩ := step
  obtain ⟨rfl, rfl⟩ := declared.unique empty
  obtain ⟨rfl, rfl⟩ := behind.unique nothing
  simp [is] at rest

theorem second_eq : (t :: s)[1]?.getD c.eof = next c s := by
  rw [List.getElem?_cons_succ, next, List.head?_eq_getElem?]

theorem namePath_simple (name : t.kind = .identifier) (ends : goesOn c s = false)
    (noArgs : (next c s).is .less = false) : (namePath P).Reads c (t :: s) (.simple t.text) s := by
  have segment : (nameSegment P).Reads c (t :: s) ⟨t.text, none⟩ s := by
    simp [nameSegment, Token.isKw, name, noArgs, and_assoc]
  have last : segmentFollows.Reads c s false s := by
    simpa [segmentFollows, and_assoc, goesOn, Bool.and_eq_false_iff] using ends
  simp only [namePath, reads_bind]
  refine ⟨false, t :: s, by simp [Token.is, name], _, s, segment, [], s, reads_collect_stop ?_, ?_⟩
  · simp only [reads_bind]
    exact ⟨false, s, last, by simp⟩
  · simp [NamePath.simple]

/-- A name that is no macro and does not go on is a base type. -/
theorem typeName_reads (name : t.kind = .identifier) (shown : takenForMacro c s = false)
    (ends : goesOn c s = false) (noArgs : (next c s).is .less = false)
    (noKeyword : (next c s).kind.isPrimitive = false ∧
      [Keyword.struct, .klass, .union, .enum, .typename].any (next c s).isKw = false) :
    (typeName P record specs).Reads c (t :: s)
      ({ specs with base := some (.path (.simple t.text)) }, true) s := by
  simp only [takenForMacro, Bool.or_eq_false_iff] at shown
  obtain ⟨noParen, noMacro⟩ := shown
  have noLook : looksLikeMacro.Reads c s false s := by
    simp only [looksLikeMacro, reads_bind, reads_peek, reads_nth]
    refine ⟨_, _, ⟨rfl, rfl⟩, _, _, ⟨rfl, rfl⟩, ?_⟩
    simp only [noKeyword, noMacro, Bool.or_self, reads_pure, and_self]
  simp only [typeName, reads_bind, reads_here, reads_peek, reads_nth]
  refine ⟨_, _, ⟨rfl, rfl⟩, _, _, ⟨rfl, rfl⟩, _, _, ⟨rfl, rfl⟩, ?_⟩
  simp only [second_eq, noParen, Bool.and_false, Bool.false_eq_true, if_false, reads_bind]
  refine ⟨_, s, namePath_simple name ends noArgs, ?_⟩
  have notQualified : (NamePath.simple t.text : PathExpr).isQualified = false := rfl
  have isSimple : (NamePath.simple t.text : PathExpr).isSimple = true := rfl
  simp only [notQualified, isSimple, Bool.false_and, Bool.true_and, Bool.false_eq_true, if_false,
    reads_bind]
  simp [noLook]

theorem not_reads_unknownMacro {α : Type} {a : α} : ¬(unknownMacro : Parser α).Reads c s a u := by
  intro read
  simp only [unknownMacro, reads_bind, reads_isNext] at read
  obtain ⟨_, _, -, _, _, -, invoked, _, -, run⟩ := read
  cases invoked <;> simp at run

/-- A name that is taken for a macro is no base type. -/
theorem not_typeName_taken {x : Specifiers × Bool} (name : t.kind = .identifier)
    (other : record ≠ some t.text) (taken : takenForMacro c s = true) :
    ¬(typeName P record specs).Reads c (t :: s) x u := by
  intro read
  simp only [typeName, reads_bind, reads_here, reads_peek, reads_nth] at read
  obtain ⟨_, _, ⟨rfl, rfl⟩, _, _, ⟨rfl, rfl⟩, _, _, ⟨rfl, rfl⟩, run⟩ := read
  simp only [second_eq, next_cons, name, beq_self_eq_true, Bool.true_and] at run
  cases paren : (next c s).is .lparen with
  | true => simp [paren, other, not_reads_unknownMacro] at run
  | false =>
    simp only [takenForMacro, paren, Bool.false_or, Bool.and_eq_true, beq_iff_eq] at taken
    obtain ⟨first, second⟩ := taken
    have ends : goesOn c s = false := by simp [goesOn, Token.is, first]
    have noArgs : (next c s).is .less = false := by simp [Token.is, first]
    have path := @namePath_simple c s t P name ends noArgs
    simp only [paren, Bool.false_eq_true, if_false] at run
    rw [reads_bind_of path] at run
    have notQualified : (NamePath.simple t.text : PathExpr).isQualified = false := rfl
    have isSimple : (NamePath.simple t.text : PathExpr).isSimple = true := rfl
    have looks : looksLikeMacro.Reads c s true s := by
      simp only [looksLikeMacro, reads_bind, reads_peek, reads_nth]
      refine ⟨_, _, ⟨rfl, rfl⟩, _, _, ⟨rfl, rfl⟩, ?_⟩
      simp only [first, second, beq_self_eq_true, Bool.and_self, Bool.or_true, reads_pure, and_self]
    have shown : looksLikeMacro.Reads c s false u ∧
        ({ specs with base := some (.path (.simple t.text)) }, true) = x := by
      simpa [notQualified, isSimple, not_reads_unknownMacro] using run
    exact absurd (looks.unique shown.1).1 (by decide)

end HeaderDecl.Grammar
