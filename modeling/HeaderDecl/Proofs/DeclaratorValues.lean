import HeaderDecl.Proofs.SpecifierValues

/-!
The declarators and template parameters that are read from spelled tokens are written with identifiers,
if what nests in them is. Operators are named by punctuators, none of which has a colon.
-/

namespace HeaderDecl.Grammar

open HeaderDecl.Grammar.Parser

variable {c : Context} {s : Cursor}

/-! ### Pointers and references -/

/-- Pointers and references bring no names. -/
theorem gives_pointerOps : pointerOps.Gives c s fun r => ∀ op ∈ r.1, op.Plain := by
  refine (gives_collect (fun piece => ∀ op ∈ piece, op.Plain) fun t => ?_).bind
    fun pieces t plain => gives_pure fun op hop => ?_
  · have single (op : TypeOp) (plain : op.Plain) (more : Bool) (u : Cursor) :
        (pure ([some op], more) : Parser (List (Option TypeOp) × Bool)).Gives c u
          fun r => ∀ piece ∈ r.1, ∀ op ∈ piece, op.Plain :=
      gives_pure (List.forall_mem_singleton.mpr (forall_mem_some.mpr plain))
    refine proceeds_skipAttributes.then fun _ u => proceeds_take.then fun star v => ?_
    split
    · exact proceeds_pointerQualifiers.then fun q w => single (.pointer q) trivial _ w
    refine proceeds_take.then fun amp w => ?_
    split
    · exact single .reference trivial _ w
    refine proceeds_take.then fun ampAmp x => ?_
    split
    · exact single .rvalueReference trivial _ x
    refine proceeds_take.then fun ellipsis y => ?_
    split
    · exact gives_pure (List.forall_mem_singleton.mpr forall_mem_none)
    refine gives_peek fun next _ _ => ?_
    split
    · exact gives_pass fun _ z => gives_none
    · exact gives_none
  · obtain ⟨piece, hpiece, found⟩ := List.mem_filterMap.mp hop
    exact plain piece hpiece op found

theorem gives_requireType {specs : Specifiers} (plain : specs.Plain) :
    (requireType specs).Gives c s TypeExpr.Plain := by
  unfold requireType
  split
  · exact gives_pure (plain.ty _ ‹_›)
  · exact gives_failHere

/-! ### Operators -/

theorem colon_notMem_of_overloadable :
    ∀ x ∈ Punct.spellings, x.2 ∈ overloadable → ':' ∉ x.1 := by decide

theorem colon_notMem_of_is {t : Token} (spelled : t.Spelled) {p : Punct} (is : t.is p = true)
    (named : p ∈ overloadable) : ':' ∉ t.text.toList :=
  colon_notMem_of_overloadable _ (spelled.spelling (eq_of_beq is)) named

theorem plain_operator {text : String} (h : ':' ∉ text.toList) :
    (DeclName.operator ("operator" ++ text)).Plain := by
  intro mem
  have whole := List.takeWhile_subset _ mem
  simp [h] at whole

/-- Behind the first blank anything may stand. -/
theorem plain_operator_word (text : String) : (DeclName.operator ("operator " ++ text)).Plain := by
  show ':' ∉ Name.word _
  simp [Name.word]

theorem gives_operatorRest {first : Token} (h : ':' ∉ first.text.toList) :
    (operatorRest first).Gives c s fun text => ':' ∉ text.toList := by
  refine (gives_loop (I := fun r => ':' ∉ r.1.toList) (fun r t plain => ?_) h).bind
    fun r t plain => gives_pure plain
  refine gives_peek fun next same spelled => ?_
  split
  · rename_i joined
    have more : ':' ∉ next.text.toList := by
      simp only [Bool.and_eq_true, Bool.or_eq_true] at joined
      rcases joined.1.2 with is | is
      · exact colon_notMem_of_is spelled is (by decide)
      · exact colon_notMem_of_is spelled is (by decide)
    refine gives_pass fun _ u => gives_pure ?_
    simp [plain, more]
  · exact gives_pure plain

section Parts

variable {P : Nested} (nested : P.Gives)

include nested

theorem gives_conversionTarget : (conversionTarget P).Gives c s TypeExpr.Plain := by
  refine (nested.specifiers _ _).bind fun specs t plain => ?_
  refine (gives_requireType plain).bind fun ty u hty => ?_
  exact gives_pointerOps.bind fun ops v hops => gives_pure (plain_applyOps hops hty)

theorem gives_operatorName : (operatorName P).Gives c s DeclName.Plain := by
  refine gives_peek fun next same spelled => ?_
  split
  · refine gives_pass fun _ t => proceeds_consume.then fun _ u => gives_pure ?_
    have text : ':' ∉ "()".toList := by decide
    exact plain_operator text
  split
  · refine gives_pass fun _ t => proceeds_consume.then fun _ u => gives_pure ?_
    have text : ':' ∉ "[]".toList := by decide
    exact plain_operator text
  split
  · refine gives_pass fun _ t => gives_isNext fun open_ => gives_nth fun close => ?_
    split
    · refine gives_pass fun _ u => gives_pass fun _ v => gives_pure ?_
      show (DeclName.operator ("operator " ++ next.text ++ "[]")).Plain
      rw [String.append_assoc]
      exact plain_operator_word _
    · refine gives_pure ?_
      show (DeclName.operator ("operator " ++ next.text)).Plain
      exact plain_operator_word _
  split
  · rename_i operator
    obtain ⟨p, named, is⟩ := List.any_eq_true.mp operator
    refine gives_pass fun _ t => ?_
    exact (gives_operatorRest (colon_notMem_of_is spelled is named)).bind fun text u plain =>
      gives_pure (plain_operator plain)
  · exact (gives_conversionTarget nested).bind fun ty t plain => gives_pure plain

/-! ### Names -/

theorem gives_declaratorSegment (kind : (next c s.ahead).kind = .identifier) :
    (declaratorSegment P).Gives c s fun r => Name.Plain r.1 := by
  refine gives_advance.bind fun name t ⟨same, spelled⟩ => gives_isNext fun less => ?_
  have plain : Name.Plain name.text := spelled.plain (same ▸ kind)
  extract_lets rest
  have last (u : Cursor) : (rest ()).Gives c u fun r => Name.Plain r.1 := by
    refine gives_nth fun after => gives_isNext fun colon => ?_
    split
    · exact gives_pass fun _ _ => gives_pure plain
    · exact gives_pure plain
  split
  · refine (gives_speculate (Q := fun _ => True) ?_ trivial).bind fun _ u _ => last u
    exact (gives_templateArgs nested).mono fun _ _ => trivial
  · exact last t

theorem gives_declaratorName : (declaratorName P).Gives c s fun r => r.1.Plain := by
  refine proceeds_take.then fun absolute t => ?_
  refine (gives_loop (I := fun r => ∀ n ∈ r.1, n.Plain) (fun r u _ => ?_) ?_).bind fun r u plain => ?_
  · refine gives_peek fun next same spelled => ?_
    split
    · refine gives_pass fun _ v => (gives_operatorName nested).bind fun name w hname => ?_
      exact gives_pure (forall_mem_some.mpr hname)
    split
    · refine gives_pass fun _ v => gives_consumeKind.bind fun name w ⟨kind, spelled⟩ => ?_
      exact gives_pure (forall_mem_some.mpr (spelled.plain kind))
    split
    · rename_i kind
      refine (gives_declaratorSegment nested (same ▸ eq_of_beq kind)).bind fun r v hname => ?_
      exact gives_pure (forall_mem_some.mpr hname)
    · exact gives_failHere
  · exact forall_mem_none
  · rcases r with ⟨_ | name, qualified⟩
    · exact gives_failHere
    · exact gives_pure (plain name rfl)

/-! ### Functions -/

theorem gives_parameter : (parameter P).Gives c s fun p => p.ty.Plain := by
  refine (nested.specifiers _ _).bind fun specs t plain => ?_
  refine (gives_requireType plain).bind fun ty u hty => ?_
  refine (nested.declarator _ _).bind fun d v hd => proceeds_take.then fun eq w => ?_
  extract_lets rest
  have last (x : Cursor) : (rest ()).Gives c x fun p => p.ty.Plain :=
    gives_pure (plain_applyOps hd.ops hty)
  split
  · exact proceeds_skipTo.then fun _ => last
  · exact last w

theorem gives_parameters : (parameters P).Gives c s FunctionSuffix.Plain := by
  refine gives_isNextKw fun void => gives_nth fun after => ?_
  extract_lets rest
  have last (t : Cursor) : (rest ()).Gives c t FunctionSuffix.Plain := by
    refine (gives_collect (fun piece => ∀ p ∈ piece, p.ty.Plain) fun u => ?_).bind
      fun pieces u plain => proceeds_consume.then fun _ v => gives_pure ⟨fun p hp => ?_, ?_⟩
    · refine gives_atEndOr fun atEnd => ?_
      split
      · exact gives_none
      refine proceeds_take.then fun dots v => ?_
      split
      · exact gives_pure (List.forall_mem_singleton.mpr forall_mem_none)
      refine (gives_parameter nested).bind fun p w plain => proceeds_take.then fun comma x => ?_
      have given : ∀ q ∈ some p, q.ty.Plain := forall_mem_some.mpr plain
      exact gives_pure (List.forall_mem_singleton.mpr given)
    · obtain ⟨piece, hpiece, found⟩ := List.mem_filterMap.mp hp
      exact plain piece hpiece p found
    · exact forall_mem_none
  split
  · exact gives_pass fun _ => last
  · exact last s

theorem gives_functionTail {suffix : FunctionSuffix} (plain : suffix.Plain) :
    (functionTail P suffix).Gives c s FunctionSuffix.Plain := by
  refine gives_loop (fun suffix t plain => ?_) plain
  refine proceeds_skipAttributes.then fun _ u => gives_peek fun next _ _ => ?_
  split
  · exact gives_pass fun _ v => gives_pure ⟨plain.params, plain.trailing⟩
  split
  · exact gives_pass fun _ v => gives_pure plain
  split
  · refine gives_pass fun _ v => gives_isNext fun paren => ?_
    extract_lets rest
    split
    · exact proceeds_skipGroup.then fun _ w => gives_pure plain
    · exact gives_pure plain
  split
  · refine gives_pass fun _ v => (nested.type _ _).bind fun ty w hty => ?_
    exact gives_pure ⟨plain.params, forall_mem_some.mpr hty⟩
  · exact gives_pure plain

/-! ### Declarators -/

theorem gives_suffixes : (suffixes P).Gives c s fun ops => ∀ op ∈ ops, op.Plain := by
  refine gives_collect _ fun t => proceeds_skipAttributes.then fun _ u => ?_
  refine proceeds_take.then fun bracket v => ?_
  split
  · refine gives_isNext fun close => ?_
    extract_lets rest
    have last (size : Option Value) (w : Cursor) :
        (rest size).Gives c w fun r => ∀ op ∈ r.1, op.Plain :=
      proceeds_consume.then fun _ x => gives_pure (List.forall_mem_singleton.mpr trivial)
    split
    · exact last none v
    · exact (proceeds_value _).gives.map_bind fun size w _ => last _ w
  · refine proceeds_take.then fun paren w => ?_
    split
    · refine (gives_parameters nested).bind fun params x plain => ?_
      refine (gives_functionTail nested plain).bind fun suffix y hsuffix => ?_
      exact gives_pure (List.forall_mem_singleton.mpr hsuffix)
    · exact gives_none

theorem gives_declaratorCore (first : Token) (pack : Bool) :
    (declaratorCore P first pack).Gives c s Declarator.Plain := by
  refine gives_peek fun next _ _ => proceeds_isGrouping.then fun grouping t => ?_
  split
  · refine gives_pass fun _ u => (nested.declarator _ _).bind fun d v hd => ?_
    exact proceeds_consume.then fun _ w => gives_pure hd
  split
  · refine (gives_declaratorName nested).bind fun name u plain => ?_
    exact gives_pure ⟨forall_mem_some.mpr plain, List.forall_mem_nil _⟩
  · exact gives_pure ⟨forall_mem_none, List.forall_mem_nil _⟩

theorem gives_declarator : (declarator P).Gives c s Declarator.Plain := by
  refine gives_peek fun first _ _ => gives_pointerOps.bind fun r t hops => ?_
  refine (gives_declaratorCore nested first _).bind fun core u hcore => ?_
  refine (gives_suffixes nested).bind fun suffixes v hsuffixes => gives_pure ⟨hcore.name, ?_⟩
  simp only [List.forall_mem_append, List.mem_reverse]
  -- Whatever their order, they are the operators in front, those behind, and those of the group.
  exact ⟨⟨hops, hsuffixes⟩, hcore.ops⟩

theorem gives_typeExpr : (typeExpr P (specifiers P none)).Gives c s TypeExpr.Plain := by
  refine (gives_specifiers nested none).bind fun specs t plain => ?_
  refine (gives_requireType plain).bind fun ty u hty => ?_
  refine (gives_declarator nested).bind fun d v hd => ?_
  extract_lets rest
  split
  · exact (gives_failAt (Q := fun _ => False)).bind fun _ _ => False.elim
  · exact gives_pure (plain_applyOps hd.ops hty)

/-! ### Template parameters -/

theorem gives_templateParam :
    (templateParam P).Gives c s fun p => ∀ t ∈ p.types, t.Plain := by
  refine gives_peek fun next _ _ => ?_
  split
  · refine gives_pass fun _ t => proceeds_take.then fun pack u => proceeds_takeName.then fun name v => ?_
    refine proceeds_take.then fun eq w => ?_
    extract_lets rest
    have last (ty : Option TypeExpr) (x : Cursor) (plain : ∀ t ∈ ty, t.Plain) :
        (rest ty).Gives c x fun p => ∀ t ∈ p.types, t.Plain := by
      refine gives_pure fun t ht => plain t ?_
      exact Option.mem_toList.mp ht
    split
    · exact (nested.type _ _).map_bind fun ty x hty => last _ x (forall_mem_some.mpr hty)
    · exact last none w forall_mem_none
  split
  · refine gives_pass fun _ t => (nested.templateParams _ _).bind fun _ u _ => ?_
    refine proceeds_consumeAnyKw.then fun _ v => proceeds_take.then fun pack w => ?_
    refine proceeds_takeName.then fun name x => proceeds_literalDefault.then fun _ y => ?_
    exact gives_pure (List.forall_mem_nil _)
  · refine (nested.specifiers _ _).bind fun specs t plain => ?_
    refine (gives_requireType plain).bind fun ty u hty => ?_
    refine (nested.declarator _ _).bind fun d v hd => proceeds_literalDefault.then fun _ w => ?_
    exact gives_pure (List.forall_mem_singleton.mpr (plain_applyOps hd.ops hty))

theorem gives_templateParams : (templateParams P).Gives c s TemplateParam.AllPlain := by
  refine proceeds_consume.then fun _ t => ?_
  refine (gives_commaSeparated _ fun u => gives_templateParam nested).bind fun params u plain => ?_
  exact proceeds_consume.then fun _ v => gives_pure plain

end Parts

end HeaderDecl.Grammar
