import HeaderDecl.Proofs.SpecifierProgress

/-!
Declarators and what follows them come to an end, if what nests in them does with fewer tokens ahead.
-/

namespace HeaderDecl.Grammar

open HeaderDecl.Grammar.Parser

section Parts

variable {P : Nested} {n : Nat} (nested : P.Proceeds n)
variable {fails : Prop} {base s : Cursor} {c : Context}

theorem isEof_of_isKw {t : Token} {k : Keyword} (h : t.isKw k = true) : t.isEof = false := by
  grind [Token.isKw, Token.isEof]

theorem isEof_of_is {t : Token} {p : Punct} (h : t.is p = true) : t.isEof = false := by
  grind [Token.is, Token.isEof]

theorem isEof_of_isWordIn {t : Token} {words : List String} (h : t.isWordIn words = true) :
    t.isEof = false := by
  grind [Token.isWordIn, Token.isEof]

/-! ### Pointers and references -/

theorem proceeds_pointerQualifiers :
    pointerQualifiers.Proceeds fails base c s fun _ t => t.left ≤ s.left := by
  refine proceeds_loop_of_leads fun q t le => proceeds_peek fun next ahead => ?_
  split
  · have := ahead (isEof_of_isKw ‹_›)
    exact proceeds_advance.bind fun _ u read => proceeds_pure (.more (by omega))
  · split
    · have := ahead (isEof_of_isKw ‹_›)
      exact proceeds_advance.bind fun _ u read => proceeds_pure (.more (by omega))
    · exact proceeds_takeKw.bind fun more u passed => proceeds_pure ⟨passed.1, passed.2.1⟩

theorem proceeds_pointerOps :
    pointerOps.Proceeds fails base c s fun _ t => t.left ≤ s.left := by
  refine (proceeds_collect_of_leads fun t le => ?_).bind fun pieces t le => proceeds_pure le
  refine proceeds_skipAttributes.bind fun _ u skipped => proceeds_take.bind fun star v passed => ?_
  split
  · have := passed.2.1 ‹_›
    exact proceeds_pointerQualifiers.bind fun q w le' => proceeds_pure (.more (by omega))
  · refine proceeds_take.bind fun amp w passed' => ?_
    split
    · have := passed'.2.1 ‹_›
      exact proceeds_pure (.more (by omega))
    · refine proceeds_take.bind fun ampAmp x passed'' => ?_
      split
      · have := passed''.2.1 ‹_›
        exact proceeds_pure (.more (by omega))
      · refine proceeds_take.bind fun ellipsis y dots => ?_
        split
        · have := dots.2.1 ‹_›
          exact proceeds_pure (.more (by omega))
        · refine proceeds_peek fun next ahead => ?_
          split
          · have := ahead (isEof_of_isWordIn ‹_›)
            exact proceeds_advance.bind fun _ z read => proceeds_pure (.more (by omega))
          · exact proceeds_pure (.stop (by omega))

theorem proceeds_isGrouping :
    isGrouping.Proceeds fails base c s fun b t => t = s ∧ (b = true → 0 < s.left) :=
  proceeds_nth fun after => proceeds_isNext fun paren found => proceeds_pure (by grind)

/-! ### Names -/

theorem proceeds_requireType (specs : Specifiers) :
    (requireType specs).Proceeds True base c s fun _ t => t.left ≤ s.left := by
  unfold requireType
  split
  · exact proceeds_pure (Nat.le_refl _)
  · exact proceeds_failHere

theorem proceeds_operatorRest (first : Token) :
    (operatorRest first).Proceeds fails base c s fun _ t => t.left ≤ s.left := by
  refine (proceeds_loop_of_leads fun a t le => ?_).bind fun r t le => proceeds_pure le
  refine proceeds_peek fun next ahead => ?_
  split
  · rename_i joined
    have := ahead (by grind [Token.is, Token.isEof])
    exact proceeds_advance.bind fun _ u read => proceeds_pure (.more (by omega))
  · exact proceeds_pure (.stop (Nat.le_refl _))

include nested

theorem proceeds_conversionTarget (room : s.left < n) :
    (conversionTarget P).Proceeds True base c s fun _ t => t.left ≤ s.left := by
  refine (nested.specifiers _ _ _ room).bind fun specs t le => ?_
  refine (proceeds_requireType specs).bind fun ty u le' => ?_
  exact proceeds_pointerOps.bind fun ops v le'' => proceeds_pure (by omega)

theorem proceeds_operatorName (room : s.left < n) :
    (operatorName P).Proceeds True base c s fun _ t => t.left ≤ s.left := by
  refine proceeds_peek fun next _ => ?_
  split
  · refine proceeds_advance.bind fun _ t passed => ?_
    exact proceeds_consume.bind fun _ u closed => proceeds_pure (by omega)
  split
  · refine proceeds_advance.bind fun _ t passed => ?_
    exact proceeds_consume.bind fun _ u closed => proceeds_pure (by omega)
  split
  · refine proceeds_advance.bind fun _ t passed => proceeds_isNext fun open_ _ => ?_
    refine proceeds_nth fun close => ?_
    split
    · refine proceeds_advance.bind fun _ u passed' => proceeds_advance.bind fun _ v closed => ?_
      exact proceeds_pure (by omega)
    · exact proceeds_pure (by omega)
  split
  · refine proceeds_advance.bind fun _ t passed => ?_
    exact (proceeds_operatorRest next).bind fun _ u le => proceeds_pure (by omega)
  · exact (proceeds_conversionTarget nested room).bind fun _ t le => proceeds_pure le

theorem proceeds_declaratorSegment (room : s.left ≤ n) (some_ : 0 < s.left) :
    (declaratorSegment P).Proceeds fails base c s fun _ t => t.left < s.left := by
  refine proceeds_advance.bind fun name t passed => proceeds_isNext fun less _ => ?_
  extract_lets rest
  have last (u : Cursor) (lt : u.left < s.left) :
      (rest ()).Proceeds fails base c u fun _ t => t.left < s.left := by
    refine proceeds_nth fun after => proceeds_isNext fun colon _ => ?_
    split
    · exact proceeds_advance.bind fun _ v passed' => proceeds_pure (by omega)
    · exact proceeds_pure lt
  split
  · refine (proceeds_speculate (Q := fun _ u => u.left ≤ t.left) ?_ (Nat.le_refl _)).bind
      fun _ u le => last u (by omega)
    exact (proceeds_templateArgs nested (by omega)).mono fun _ _ lt => Nat.le_of_lt lt
  · exact last t (by omega)

theorem proceeds_declaratorName (room : s.left ≤ n) :
    (declaratorName P).Proceeds True base c s fun _ t => t.left ≤ s.left := by
  refine proceeds_take.bind fun absolute t passed => ?_
  refine (proceeds_loop_of_leads fun r u le => ?_).bind fun r u le => ?_
  · refine proceeds_peek fun next ahead => ?_
    split
    · have := ahead (isEof_of_isKw ‹_›)
      refine proceeds_advance.bind fun _ v read => ?_
      exact (proceeds_operatorName nested (by omega)).bind fun _ w le' =>
        proceeds_pure (.stop (by omega))
    split
    · refine proceeds_advance.bind fun _ v read => ?_
      exact (proceeds_consumeKind (by nofun)).bind fun _ w named => proceeds_pure (.stop (by omega))
    split
    · have := ahead (by grind [Token.isEof])
      refine (proceeds_declaratorSegment nested ?_ this).bind fun r v lt => proceeds_pure (.more lt)
      omega
    · exact proceeds_failHere
  · rcases r with ⟨_ | name, qualified⟩
    · exact proceeds_failHere
    · exact proceeds_pure (by omega)

/-! ### Functions -/

theorem proceeds_parameter (room : s.left < n) :
    (parameter P).Proceeds True base c s fun _ t => t.left ≤ s.left := by
  refine (nested.specifiers _ _ _ room).bind fun specs t le => ?_
  refine (proceeds_requireType specs).bind fun ty u le' => ?_
  refine (nested.declarator _ _ _ (by omega)).bind fun d v le'' => ?_
  refine proceeds_take.bind fun eq w passed => ?_
  extract_lets rest
  have last (x : Cursor) (le : x.left ≤ s.left) :
      (rest ()).Proceeds True base c x fun _ t => t.left ≤ s.left := proceeds_pure le
  split
  · exact proceeds_skipTo.bind fun _ x skipped => last x (by omega)
  · exact last w (by omega)

theorem proceeds_parameters (room : s.left < n) :
    (parameters P).Proceeds True base c s fun _ t => t.left ≤ s.left := by
  refine proceeds_isNextKw fun void _ => proceeds_nth fun after => ?_
  extract_lets rest
  have last (t : Cursor) (le : t.left ≤ s.left) :
      (rest ()).Proceeds True base c t fun _ t => t.left ≤ s.left := by
    refine (proceeds_collect_of_leads fun u le' => ?_).bind fun pieces u le' => ?_
    · refine proceeds_atEndOr fun atEnd _ _ => ?_
      split
      · exact proceeds_pure (.stop (Nat.le_refl _))
      refine proceeds_take.bind fun dots v passed => ?_
      split
      · exact proceeds_pure (.stop passed.1)
      refine (proceeds_parameter nested (by omega)).bind fun p w le'' => ?_
      refine proceeds_take.bind fun comma x passed' => proceeds_pure ⟨by omega, fun more => ?_⟩
      have := passed'.2.1 more
      omega
    · exact proceeds_consume.bind fun _ v closed => proceeds_pure (by omega)
  split
  · exact proceeds_advance.bind fun _ t passed => last t (by omega)
  · exact last s (Nat.le_refl _)

theorem proceeds_functionTail (room : s.left ≤ n) (suffix : FunctionSuffix) :
    (functionTail P suffix).Proceeds True base c s fun _ t => t.left ≤ s.left := by
  refine proceeds_loop_of_leads fun suffix t le => ?_
  refine proceeds_skipAttributes.bind fun _ u skipped => proceeds_peek fun next ahead => ?_
  split
  · have := ahead (isEof_of_isKw ‹_›)
    exact proceeds_advance.bind fun _ v read => proceeds_pure (.more (by omega))
  split
  · have := ahead (by grind [Token.isKw, Token.is, Token.isWordIn, Token.isEof])
    exact proceeds_advance.bind fun _ v read => proceeds_pure (.more (by omega))
  split
  · have := ahead (isEof_of_isWordIn ‹_›)
    refine proceeds_advance.bind fun _ v read => proceeds_isNext fun paren _ => ?_
    extract_lets rest
    split
    · exact proceeds_skipGroup.bind fun _ w skipped' => proceeds_pure (.more (by omega))
    · exact proceeds_pure (.more (by omega))
  split
  · have := ahead (isEof_of_is ‹_›)
    refine proceeds_advance.bind fun _ v read => ?_
    exact (nested.type _ _ _ (by omega)).bind fun ty w le' => proceeds_pure (.more (by omega))
  · exact proceeds_pure (.stop skipped)

/-! ### Declarators -/

theorem proceeds_suffixes (room : s.left ≤ n) :
    (suffixes P).Proceeds True base c s fun _ t => t.left ≤ s.left := by
  refine proceeds_collect_of_leads fun t le => ?_
  refine proceeds_skipAttributes.bind fun _ u skipped => proceeds_take.bind fun bracket v passed => ?_
  split
  · have := passed.2.1 ‹_›
    refine proceeds_isNext fun close _ => ?_
    extract_lets rest
    have last (size : Option Value) (w : Cursor) (le : w.left ≤ v.left) :
        (rest size).Proceeds True base c w fun r => t.Leads r.2 :=
      proceeds_consume.bind fun _ x closed => proceeds_pure (.more (by omega))
    split
    · exact last none v (Nat.le_refl _)
    · exact (proceeds_value _).map_bind fun size w le' => last _ w le'
  · refine proceeds_take.bind fun paren w passed' => ?_
    split
    · have := passed'.2.1 ‹_›
      refine (proceeds_parameters nested (by omega)).bind fun params x le' => ?_
      refine (proceeds_functionTail nested (by omega) params).bind fun suffix y le'' => ?_
      exact proceeds_pure (.more (by omega))
    · exact proceeds_pure (.stop (by omega))

theorem proceeds_declaratorCore (room : s.left ≤ n) (first : Token) (pack : Bool) :
    (declaratorCore P first pack).Proceeds True base c s fun _ t => t.left ≤ s.left := by
  refine proceeds_peek fun next _ => proceeds_isGrouping.bind ?_
  rintro grouping _ ⟨rfl, ahead⟩
  split
  · have := ahead ‹_›
    refine proceeds_advance.bind fun _ t read => ?_
    refine (nested.declarator _ _ _ (by omega)).bind fun d u le => ?_
    exact proceeds_consume.bind fun _ v closed => proceeds_pure (by omega)
  split
  · exact (proceeds_declaratorName nested room).bind fun name t le => proceeds_pure le
  · exact proceeds_pure (Nat.le_refl _)

theorem proceeds_declarator (room : s.left ≤ n) :
    (declarator P).Proceeds True base c s fun _ t => t.left ≤ s.left := by
  refine proceeds_peek fun first _ => proceeds_pointerOps.bind fun r t le => ?_
  refine (proceeds_declaratorCore nested (by omega) first _).bind fun core u le' => ?_
  exact (proceeds_suffixes nested (by omega)).bind fun ops v le'' => proceeds_pure (by omega)

theorem proceeds_typeExpr (room : s.left ≤ n) :
    (typeExpr P (specifiers P none)).Proceeds True base c s fun _ t => t.left ≤ s.left := by
  refine (proceeds_specifiers nested room none).bind fun specs t friend => ?_
  refine (proceeds_requireType specs).bind fun ty u le => ?_
  refine (proceeds_declarator nested (by omega)).bind fun d v le' => ?_
  extract_lets rest
  split
  · exact proceeds_failAt.bind fun _ _ h => h
  · exact proceeds_pure (by omega)

/-! ### Template parameters -/

omit nested in
theorem proceeds_literalDefault :
    literalDefault.Proceeds fails base c s fun _ t => t.left ≤ s.left := by
  refine proceeds_take.bind fun eq t passed => ?_
  split
  · exact (proceeds_skipTo.bind fun _ u le => proceeds_pure (by omega)).map
  · exact proceeds_pure passed.1

omit nested in
theorem proceeds_takeName :
    takeName.Proceeds fails base c s fun name t => s.Leads name.isSome t := by
  refine proceeds_isNextIdentifier fun named ahead => ?_
  split
  · have := ahead ‹_›
    exact proceeds_advance.bind fun _ t read => proceeds_pure (.more (by omega))
  · exact proceeds_pure (.stop (Nat.le_refl _))

theorem proceeds_templateParam (room : s.left < n) :
    (templateParam P).Proceeds True base c s fun _ t => t.left ≤ s.left := by
  refine proceeds_peek fun next ahead => ?_
  split
  · refine proceeds_advance.bind fun _ t read => proceeds_take.bind fun pack u passed => ?_
    refine proceeds_takeName.bind fun name v moved => proceeds_take.bind fun eq w passed' => ?_
    have le := moved.1
    extract_lets rest
    have last (ty : Option TypeExpr) (x : Cursor) (le : x.left ≤ s.left) :
        (rest ty).Proceeds True base c x fun _ t => t.left ≤ s.left := proceeds_pure le
    split
    · exact (nested.type _ _ _ (by omega)).map_bind fun ty x le' => last _ x (by omega)
    · exact last none w (by omega)
  split
  · refine proceeds_advance.bind fun _ t read => ?_
    refine (nested.templateParams _ _ _ (by omega)).bind fun _ u le => ?_
    refine proceeds_consumeAnyKw.bind fun _ v read' => proceeds_take.bind fun pack w passed => ?_
    refine proceeds_takeName.bind fun name x moved => ?_
    have le' := moved.1
    exact proceeds_literalDefault.bind fun _ y le'' => proceeds_pure (by omega)
  · refine (nested.specifiers _ _ _ room).bind fun specs t le => ?_
    refine (proceeds_requireType specs).bind fun ty u le' => ?_
    refine (nested.declarator _ _ _ (by omega)).bind fun d v le'' => ?_
    exact proceeds_literalDefault.bind fun _ w le''' => proceeds_pure (by omega)

theorem proceeds_templateParams (room : s.left ≤ n) :
    (templateParams P).Proceeds True base c s fun _ t => t.left < s.left := by
  refine proceeds_consume.bind fun _ t opened => ?_
  refine (proceeds_commaSeparated fun u le => ?_).bind fun params u le => ?_
  · exact proceeds_templateParam nested (by omega)
  · exact proceeds_consume.bind fun _ v closed => proceeds_pure (by omega)

omit nested

/-! ### After a declarator -/

theorem proceeds_constructorInitializers :
    constructorInitializers.Proceeds fails base c s fun _ t => t.left ≤ s.left := by
  refine (proceeds_loop_of_leads fun _ t le => ?_).bind fun _ t le => proceeds_pure le
  refine proceeds_skipTo.bind fun _ u skipped => proceeds_skipGroup.bind fun _ v skipped' => ?_
  refine proceeds_take.bind fun more w passed => proceeds_pure ⟨by omega, fun comma => ?_⟩
  have := passed.2.1 comma
  omega

theorem proceeds_initializer (isFunction : Bool) :
    (initializer isFunction).Proceeds fails base c s fun tail t =>
      t.left ≤ s.left ∧ tail.hasBody = false := by
  refine proceeds_peek fun next _ => ?_
  split
  · exact proceeds_advance.bind fun _ t read => proceeds_pure ⟨by omega, rfl⟩
  · extract_lets rest
    split
    · exact proceeds_advance.bind fun _ t read => proceeds_pure ⟨by omega, rfl⟩
    · exact proceeds_skipTo.bind fun _ t le => proceeds_pure ⟨le, rfl⟩

/-- A body is not empty. -/
theorem proceeds_tail (d : Declarator) :
    (tail d).Proceeds True base c s fun tail t => s.Leads tail.hasBody t := by
  unfold tail
  extract_lets -underBinder isFunction
  refine proceeds_skipAttributes.bind fun _ t le => proceeds_isNext fun colon _ => ?_
  extract_lets -underBinder rest
  have last (width : Option Value) (u : Cursor) (le : u.left ≤ s.left) :
      (rest width).Proceeds True base c u fun tail t => s.Leads tail.hasBody t := by
    refine proceeds_take.bind fun eq v passed => ?_
    split
    · refine (proceeds_initializer isFunction).bind fun r w read => proceeds_pure ?_
      rw [read.2]
      exact .stop (by omega)
    · extract_lets body
      have braces (w : Cursor) (le : w.left ≤ s.left) :
          (body ()).Proceeds True base c w fun tail t => s.Leads tail.hasBody t := by
        refine proceeds_isNext fun brace found => ?_
        split
        · have := found ‹_›
          exact proceeds_skipGroup.bind fun _ x skipped => proceeds_pure (.more (by omega))
        · exact proceeds_pure (.stop le)
      split
      · refine proceeds_take.bind fun colon w passed' => ?_
        split
        · exact proceeds_constructorInitializers.bind fun _ x le' => braces x (by omega)
        · exact braces w (by omega)
      · exact braces v (by omega)
  split
  · refine proceeds_advance.bind fun _ u read => ?_
    exact (proceeds_value _).map_bind fun value v le' => last _ v (by omega)
  · exact last none t le

end Parts

end HeaderDecl.Grammar
