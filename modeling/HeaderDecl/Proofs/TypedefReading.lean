import HeaderDecl.Grammar.Unit
import HeaderDecl.Proofs.SuffixReading

/-!
The typedef of a type is read back from its spelling.
-/

namespace HeaderDecl.Grammar

open HeaderDecl.Grammar.Parser

variable {c : Context} {s rest u : List Token} {t n : Token} {m : Nat} {x : Option String}
  {words : List Word} {ty : TypeExpr}

/-! ### Types around declarators -/

/-- The words of a base type and a declarator that make some type together. -/
def DeclaresType (words : List Word) (x : Option String) (ty : TypeExpr) : Prop :=
  ∃ q p declarator pre ops, words = baseWords q p ++ declarator ∧
    DeclaratorWords declarator x pre ops ∧
    applyOps (.withQualifiers q (.primitive p)) (pre ++ ops) = ty

theorem requireType_reads {specs : Specifiers} (some_ : specs.ty = some ty) :
    (requireType specs).Reads c s ty s := by
  simp [requireType, some_]

theorem DeclaresType.parameterWords (h : DeclaresType words x ty) :
    ParameterWords words ⟨x, ty, false⟩ := by
  obtain ⟨q, p, declarator, pre, ops, rfl, reads, rfl⟩ := h
  constructor
  · intro m c ts rest t close enough spelled kind ends
    obtain ⟨base, others, rfl, spelledBase, spelledOthers⟩ := spelled.exists_append
    have pos : 0 < (baseWords q p).length := by
      cases p <;> simp [baseWords, Primitive.keywords]
    rw [List.length_append] at enough
    obtain ⟨m, rfl⟩ : ∃ n, m = n + 1 := ⟨m - 1, by omega⟩
    have follows : Follows (t :: rest) := .ends kind (by rcases ends with rfl | rfl <;> simp)
    have notSuffix : (next c (t :: rest)).is .lbracket = false ∧
        (next c (t :: rest)).is .lparen = false ∧ (next c (t :: rest)).is .eq = false := by
      rcases ends with rfl | rfl <;> simp [Token.is, kind]
    have behind := @suffixes_stop c (t :: rest) (.upTo m) notSuffix.1 notSuffix.2.1
      follows.attributeTokens_eq
    obtain ⟨stops, noAttribute⟩ := @DeclaratorWords.starts declarator x pre ops reads c others
      (t :: rest) spelledOthers follows
    have specs := @specifiers_base c (others ++ t :: rest) q (.upTo m) none false base p spelledBase
      stops noAttribute
    obtain ⟨d, read, name, -, operators⟩ :=
      (reads.reads (show declarator.length ≤ m by omega) spelledOthers follows behind).reads
    simp only [parameter, reads_bind]
    rw [List.append_assoc]
    refine ⟨_, _, specs, _, _, requireType_reads (ty_namingSpecifiers false q p), d, t :: rest, read,
      false, t :: rest, ?_, ?_⟩
    · simpa using notSuffix.2.2
    · have plain : d.paramName? = x := by
        unfold Declarator.paramName?
        rw [name]
        cases x <;> rfl
      simp [plain, operators]
  · have open_ : declarator.head? ≠ some (.punct .rparen) := fun head =>
      reads.open_ _ head (by simp)
    obtain ⟨_ | _, _ | _⟩ := q <;> cases p <;>
      exact ⟨_, _, rfl, by decide, fun void => by first | exact open_ | cases void⟩

theorem around_eq_void : ∀ (t : PlainType) (declarator : List Word) (prefixed : Bool),
    t.around declarator prefixed = [.kw .void] → declarator = [] ∧ t = .base {} .void
  | .base q p, declarator, prefixed, h => by
    obtain ⟨_ | _, _ | _⟩ := q <;> cases p <;> cases h
    exact ⟨rfl, rfl⟩
  | .pointer q t, _, _, h => by cases (around_eq_void t _ _ h).1
  | .reference t, _, _, h => by cases (around_eq_void t _ _ h).1
  | .rvalueReference t, _, _, h => by cases (around_eq_void t _ _ h).1
  | .array size t, _, _, h => by
    have none_ := (around_eq_void t _ _ h).1
    simp [arrayWords] at none_
  | .function result params variadic, _, _, h => by
    have none_ := (around_eq_void result _ _ h).1
    simp [parameterWords] at none_

theorem isLoneVoid_of_words {params : PlainParams}
    (h : params.words = [[.kw .void]]) : params.isLoneVoid = true := by
  match params, h with
  | .cons name t .nil, h =>
    simp only [PlainParams.words, List.cons.injEq, and_true] at h
    obtain ⟨noName, rfl⟩ := around_eq_void t _ _ h
    cases name with
    | none => rfl
    | some x => cases noName
  | .cons name t (.cons _ _ _), h => simp [PlainParams.words] at h

mutual

/-- The words of a type around a declarator are read as that type with the declarator's operators. -/
theorem declaresType_around : ∀ (t : PlainType), t.Proper →
    ∀ {declarator : List Word} {x : Option String} {pre ops : List TypeOp},
      DeclaratorWords declarator x pre ops →
        DeclaresType (t.around declarator (!pre.isEmpty)) x (applyOps t.toExpr (pre ++ ops))
  | .base q p, _, _, _, _, _, h => ⟨q, p, _, _, _, rfl, h, rfl⟩
  | .pointer _ t, proper, _, _, _, _, h => declaresType_around t proper h.pointer
  | .reference t, proper, _, _, _, _, h =>
    declaresType_around t proper (h.referenceOf (.inl ⟨rfl, rfl⟩))
  | .rvalueReference t, proper, _, _, _, _, h =>
    declaresType_around t proper (h.referenceOf (.inr ⟨rfl, rfl⟩))
  | .array size t, proper, _, _, _, _, h =>
    declaresType_around t proper (h.enclosed.suffix (suffixWords_array size))
  | .function result params variadic, ⟨properResult, properParams, notLone⟩, _, _, _, _, h => by
    have each := parameterWords_params params properParams
    have notVoid : variadic = false → params.words ≠ [[.kw .void]] := by
      intro fixed void
      have := isLoneVoid_of_words void
      rw [notLone fixed] at this
      cases this
    exact declaresType_around result properResult
      (h.enclosed.suffix (suffixWords_function each notVoid))

theorem parameterWords_params : ∀ (params : PlainParams), params.Proper →
    List.Forall₂ ParameterWords params.words params.toParams
  | .nil, _ => .nil
  | .cons none t rest, ⟨proper, properRest⟩ =>
    .cons (declaresType_around t proper declaratorWords_abstract).parameterWords
      (parameterWords_params rest properRest)
  | .cons (some x) t rest, ⟨proper, properRest⟩ =>
    .cons (declaresType_around t proper (declaratorWords_name x)).parameterWords
      (parameterWords_params rest properRest)

end

/-! ### Typedefs -/

theorem tail_stop {d : Declarator} (kind : t.kind = .punct .semicolon) :
    (tail d).Reads c (t :: s) {} (t :: s) := by
  have noAttribute : attributeTokens (t :: s) = [] := attributeTokens_of_punct kind (by decide)
  simp only [tail, reads_bind, reads_skipAttributes noAttribute]
  cases d.functionSuffix?.isSome <;> simp [Token.is, kind, and_assoc]

theorem declarators_single {P : Nested} {d : Declarator} (reads : (declarator P).Reads c s d (t :: rest))
    (kind : t.kind = .punct .semicolon) : (declarators P).Reads c s [(d, {})] rest := by
  refine reads_collect_stop ?_
  simp only [reads_bind]
  refine ⟨d, t :: rest, reads, {}, t :: rest, tail_stop kind, ?_⟩
  simp [Token.is, kind, and_assoc]

theorem declare_typedef {specs : Specifiers} {d : Declarator} {x : String} {base : TypeExpr}
    {origin : Origin} {scope : List String} (typedef : specs.isTypedef = true)
    (noBody : specs.defined = none) (named : specs.ty = some base) (name : d.name = some (.plain x))
    (unqualified : d.qualified = false) :
    declare specs none none origin scope [(d, {})] =
      .ofItem (.typedef ⟨x, applyOps base d.ops⟩) origin := by
  simp [declare, noBody, Common.declareAll, Common.declareOne, Common.declareObject, unqualified,
    name, typedef, named, Declared.andThen, Declared.ofItem]

theorem declaration_typedef {ts : List Token} {x : String} {origin : Origin}
    (h : DeclaresType words (some x) ty) (typedef : t.kind = .kw .typedef)
    (spelled : Spelled ts words) (enough : words.length ≤ m) (ends : n.kind = .punct .semicolon) :
    (declaration (.upTo m) none none origin).Reads c (t :: (ts ++ n :: rest))
      (.ofItem (.typedef ⟨x, ty⟩) origin) rest := by
  obtain ⟨q, p, words, pre, ops, rfl, reads, rfl⟩ := h
  obtain ⟨base, others, rfl, spelledBase, spelledOthers⟩ := spelled.exists_append
  rw [List.length_append] at enough
  have follows : Follows (n :: rest) := .ends ends (by simp)
  have behind : (suffixes (.upTo m)).Reads c (n :: rest) [] (n :: rest) :=
    suffixes_stop (by simp [Token.is, ends]) (by simp [Token.is, ends]) follows.attributeTokens_eq
  obtain ⟨stops, noAttribute⟩ := @DeclaratorWords.starts words (some x) pre ops reads c others
    (n :: rest) spelledOthers follows
  have specs : (specifiers (.upTo m) none).Reads c (t :: (base ++ (others ++ n :: rest)))
      (namingSpecifiers true q p) (others ++ n :: rest) := by
    refine reads_loop_more { isTypedef := true } _ ?_ (Nat.lt_succ_self _)
      (specifiers_base spelledBase stops noAttribute)
    have noAttribute : attributeTokens (t :: (base ++ (others ++ n :: rest))) = [] :=
      attributeTokens_of_kw typedef (by decide)
    simp [specifierStep, reads_skipAttributes noAttribute, typedef, and_assoc]
  obtain ⟨d, read, name, unqualified, operators⟩ :=
    (reads.reads (show words.length ≤ m by omega) spelledOthers follows behind).reads
  have declared := @declare_typedef (namingSpecifiers true q p) d x _ origin c.scope rfl rfl
    (ty_namingSpecifiers true q p) name unqualified
  rw [operators, List.reverse_nil, List.nil_append] at declared
  -- The name stands between the specifiers and the semicolon.
  have notAlone : (next c (others ++ n :: rest)).is .semicolon = false := by
    cases words with
    | nil => exact absurd rfl (reads.named (by simp))
    | cons w words =>
      obtain - | @⟨first, _, _, _, ⟨kind, -⟩, -⟩ := spelledOthers
      have other := reads.open_ w rfl
      cases w <;> simp_all [Token.is, Word.kind]
  rw [List.append_assoc]
  simp only [declaration, reads_bind]
  refine ⟨_, _, specs, ?_⟩
  have notFriend : (namingSpecifiers true q p).isFriend = false := rfl
  simp only [notFriend, Bool.false_eq_true, if_false, reads_bind, reads_take, notAlone]
  refine ⟨false, _, ⟨rfl, rfl⟩, ?_⟩
  simp only [Bool.false_eq_true, if_false, reads_bind, reads_scope]
  refine ⟨_, rest, declarators_single read ends, c.scope, rest, ⟨rfl, rfl⟩, ?_⟩
  rw [declared]
  simp [Declared.ofItem]

theorem not_eof_of_spelled {ts : List Token} (spelled : Spelled ts words) :
    ∀ t ∈ ts, t.isEof = false := by
  induction spelled with
  | nil => simp
  | @cons t w ts words first _ ih =>
    have live : t.isEof = false := by
      rw [Token.isEof, first.1]
      cases w <;> rfl
    simpa [live] using ih

end HeaderDecl.Grammar

namespace HeaderDecl

open Grammar Grammar.Parser

theorem topItems_typedef {c : Context} {ts : List Token} {t n : Token} {words : List Word}
    {x : String} {ty : TypeExpr} (h : DeclaresType words (some x) ty)
    (typedef : t.kind = .kw .typedef) (spelled : Spelled ts words)
    (ends : n.kind = .punct .semicolon) (eof : c.eof.isEof = true) :
    topItems.Reads c (t :: (ts ++ [n])) [.decl (.typedef ⟨x, ty⟩) [] t.loc] [] := by
  have enough : words.length ≤ (t :: (ts ++ [n])).length := by
    have := spelled.length_eq
    simp only [List.length_cons, List.length_append]
    omega
  have read := @declaration_typedef c [] t n _ words ty ts x t.loc h typedef spelled enough ends
  have item : topItem.Reads c (t :: (ts ++ [n])) (.ofItem (.typedef ⟨x, ty⟩) t.loc) [] := by
    simp only [topItem, reads_bind, reads_here]
    refine ⟨_, _, ⟨rfl, rfl⟩, ?_⟩
    simpa [Grammar.item, anyDeclaration, left_ofTokens, Token.isKw, Token.isWordIn, typedef,
      and_assoc] using read
  refine reads_collect_more [_] [] ?_ (by simp) (reads_collect_stop ?_)
  · simp only [reads_bind]
    refine ⟨false, t :: (ts ++ [n]), by simp [Token.isEof, typedef], ?_⟩
    simp only [Bool.false_eq_true, if_false, reads_bind]
    refine ⟨false, t :: (ts ++ [n]), by simp [Token.is, typedef], ?_⟩
    simp only [Bool.false_eq_true, if_false, reads_bind]
    exact ⟨_, [], reads_recovering.2 ⟨item, rfl⟩, by simp [Declared.ofItem]⟩
  · simp [next, eof]

/-- The spelling of a typedef of a name as any type built from arithmetic types by pointers, references,
arrays and functions is read as that typedef and nothing else, without a report. -/
theorem parseUnit_typedefWords (file : String) {source : String} (x : OrdinaryName) {ty : PlainType}
    (proper : ty.Proper) (h : Written (typedefWords x ty) source.toList) :
    ∃ origin, parseUnit (lex file source) = ([.decl (.typedef ⟨x.text, ty.toExpr⟩) [] origin], []) := by
  obtain ⟨ts, eof, lexed, spelled, isEof⟩ := lex_of_written file h
  have ends : eof.isEof = true := by simp [Token.isEof, isEof]
  have split := splitEnd_append (not_eof_of_spelled spelled) ends
  obtain - | @⟨t, _, ts, _, ⟨typedef, -⟩, spelledRest⟩ := spelled
  have spelledBoth : Spelled ts (ty.around [.name x.toIdentifier] false ++ [.punct .semicolon]) :=
    spelledRest
  obtain ⟨type, close, rfl, spelledType, spelledClose⟩ := spelledBoth.exists_append
  obtain - | @⟨n, _, _, _, ⟨semicolon, -⟩, ⟨⟩⟩ := spelledClose
  have declares := declaresType_around ty proper (declaratorWords_name x)
  have read := @topItems_typedef { eof } type t n _ x.text _ declares typedef spelledType semicolon ends
  refine ⟨t.loc, ?_⟩
  rw [lexed, parseUnit, split]
  dsimp only
  rw [read]
  rfl

theorem parseUnit_typedefWords_table : ∃ origin,
    parseUnit (lex "a.h" " typedef int * const ( * f [ 3 ] ) ( const char x , ... ) ;") =
      ([.decl (.typedef {
        name := "f"
        ty := .array (.pointer (.function ⟨.qualified ⟨true, false⟩ (.pointer (.primitive .int)),
          [⟨some "x", .qualified ⟨true, false⟩ (.primitive .char), false⟩], true⟩))
          (some (.int (Int64.ofNat 3))) }) [] origin], []) := by
  refine @parseUnit_typedefWords "a.h" _ ⟨⟨"f", by decide, by decide, by decide⟩, by decide⟩
    (.array (some 3) (.pointer {} (.function (.pointer ⟨true, false⟩ (.base {} .int))
      (.cons (some ⟨⟨"x", by decide, by decide, by decide⟩, by decide⟩)
        (.base ⟨true, false⟩ .char) .nil) true))) ?_ ?_
  · exact ⟨trivial, ⟨trivial, trivial⟩, by simp⟩
  · exact written_spaced (typedefWords _ _)

end HeaderDecl
