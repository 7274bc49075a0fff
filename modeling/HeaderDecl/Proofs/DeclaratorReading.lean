import HeaderDecl.Proofs.DeclaratorSpelling
import HeaderDecl.Proofs.ParserRuns

/-!
The declarator parser reads the spelling of a type back.
-/

namespace HeaderDecl.Grammar

open HeaderDecl.Grammar.Parser

variable {c : Context} {s rest u : List Token} {t n : Token} {q : Qualifiers} {ops : List TypeOp}

/-! ### Tokens ahead -/

/-- Whether a token stands among pointer and reference operators. -/
def isOperator (t : Token) : Bool :=
  t.is .star || t.is .amp || t.is .ampAmp || t.is .ellipsis || t.isWordIn callingConventions

/-- Whether a token is a qualifier of a pointer. -/
def isQualifier (t : Token) : Bool := t.isKw .const || t.isKw .volatile || t.isKw .restrict

theorem attributeTokens_of_punct {p : Punct} (kind : t.kind = .punct p) (other : p ≠ .lbracket) :
    attributeTokens (t :: s) = [] := by
  simp [attributeTokens, Token.isKw, Token.isWordIn, Token.is, kind, other]

theorem attributeTokens_of_name (kind : t.kind = .identifier) (plain : t.text ∉ annotationWords) :
    attributeTokens (t :: s) = [] := by
  simp [attributeTokens, Token.isKw, Token.isWordIn, Token.is, kind, plain]

theorem attributeTokens_of_kw {k : Keyword} (kind : t.kind = .kw k) (other : k ≠ .attributeSpec) :
    attributeTokens (t :: s) = [] := by
  simp [attributeTokens, Token.isKw, Token.isWordIn, Token.is, kind, other]

/-- What may stand behind a declarator: a token that ends it, or an array or parameter list that belongs
to it. -/
inductive Follows : List Token → Prop
  | ends {t : Token} {ts : List Token} {p : Punct} (kind : t.kind = .punct p)
    (closes : p ∈ [Punct.comma, .rparen, .semicolon]) : Follows (t :: ts)
  | array {t n : Token} {ts : List Token} (kind : t.kind = .punct .lbracket)
    (other : n.kind ≠ .punct .lbracket) : Follows (t :: n :: ts)
  | function {t n : Token} {ts : List Token} (kind : t.kind = .punct .lparen)
    (other : n.kind ∉ [TokenKind.punct .star, .punct .amp, .punct .ampAmp, .kw .attributeSpec,
      .identifier]) : Follows (t :: n :: ts)

theorem Follows.attributeTokens_eq (h : Follows s) : attributeTokens s = [] := by
  cases h with
  | ends kind closes => exact attributeTokens_of_punct kind (by rintro rfl; simp at closes)
  | array kind other => simp [attributeTokens, Token.isKw, Token.isWordIn, Token.is, kind, other]
  | function kind => exact attributeTokens_of_punct kind (by decide)

theorem Follows.kind (h : Follows s) :
    ∃ p ∈ [Punct.comma, .rparen, .semicolon, .lbracket, .lparen], (next c s).kind = .punct p := by
  cases h with
  | @ends t ts p kind closes =>
    refine ⟨p, ?_, kind⟩
    simp only [List.mem_cons, List.not_mem_nil, or_false] at closes ⊢
    tauto
  | array kind => exact ⟨.lbracket, by simp, kind⟩
  | function kind => exact ⟨.lparen, by simp, kind⟩

theorem Follows.is_eq_false (h : Follows s) {p : Punct}
    (other : p ∉ [Punct.comma, .rparen, .semicolon, .lbracket, .lparen]) :
    (next c s).is p = false := by
  obtain ⟨p', mem, kind⟩ := @Follows.kind c s h
  have differs : p' ≠ p := by rintro rfl; exact other mem
  simp [Token.is, kind, differs]

theorem Follows.isKw_eq_false (h : Follows s) (k : Keyword) : (next c s).isKw k = false := by
  obtain ⟨p, -, kind⟩ := @Follows.kind c s h
  simp [Token.isKw, kind]

theorem Follows.isWordIn_eq_false (h : Follows s) (words : List String) :
    (next c s).isWordIn words = false := by
  obtain ⟨p, -, kind⟩ := @Follows.kind c s h
  simp [Token.isWordIn, kind]

theorem Follows.not_identifier (h : Follows s) : (next c s).kind ≠ .identifier := by
  obtain ⟨p, -, kind⟩ := @Follows.kind c s h
  simp [kind]

theorem Follows.isOperator_eq_false (h : Follows s) : isOperator (next c s) = false := by
  simp [isOperator, h.is_eq_false, h.isWordIn_eq_false]

theorem Follows.isGrouping (h : Follows s) : isGrouping.Reads c s false s := by
  cases h with
  | ends kind closes =>
    simp only [List.mem_cons, List.not_mem_nil, or_false] at closes
    rcases closes with rfl | rfl | rfl <;> simp [Grammar.isGrouping, Token.is, kind]
  | array kind => simp [Grammar.isGrouping, Token.is, kind]
  | function kind other =>
    simp only [List.mem_cons, List.not_mem_nil, or_false, not_or] at other
    simp [Grammar.isGrouping, Token.is, Token.isKw, Token.isWordIn, kind, other]

/-! ### Pointer and reference operators -/

theorem pointerQualifiers_words {ts : List Token} (spelled : Spelled ts q.words)
    (stops : isQualifier (next c s) = false) : pointerQualifiers.Reads c (ts ++ s) q s := by
  simp only [isQualifier, Bool.or_eq_false_iff] at stops
  unfold pointerQualifiers
  obtain ⟨_ | _, _ | _⟩ := q
  · cases spelled
    apply reads_loop_stop
    simp [stops, and_assoc]
  · obtain - | ⟨⟨kind, -⟩, ⟨⟩⟩ := spelled
    refine reads_loop_more ⟨false, true⟩ s ?_ (by simp) (reads_loop_stop ?_)
    · simp [Token.isKw, kind, Word.kind, and_assoc]
    · simp [stops, and_assoc]
  · obtain - | ⟨⟨kind, -⟩, ⟨⟩⟩ := spelled
    refine reads_loop_more ⟨true, false⟩ s ?_ (by simp) (reads_loop_stop ?_)
    · simp [Token.isKw, kind, Word.kind, and_assoc]
    · simp [stops, and_assoc]
  · obtain - | @⟨first, _, _, _, ⟨kind, -⟩, - | @⟨second, _, _, _, ⟨kind', -⟩, ⟨⟩⟩⟩ := spelled
    refine reads_loop_more ⟨true, false⟩ (second :: s) ?_ (by simp)
      (reads_loop_more ⟨true, true⟩ s ?_ (by simp) (reads_loop_stop ?_))
    · simp [Token.isKw, kind, Word.kind, and_assoc]
    · simp [Token.isKw, kind', Word.kind, and_assoc]
    · simp [stops, and_assoc]

theorem pointerOps_stop (stops : isOperator (next c s) = false) (noAttribute : attributeTokens s = []) :
    pointerOps.Reads c s ([], false) s := by
  simp only [isOperator, Bool.or_eq_false_iff] at stops
  rw [pointerOps, reads_bind]
  refine ⟨[], s, reads_collect_stop ?_, by simp⟩
  simp [reads_skipAttributes noAttribute, stops, and_assoc]

theorem pointerOps_pointer (kind : t.kind = .punct .star) (quals : pointerQualifiers.Reads c s q rest)
    (shorter : rest.length ≤ s.length) (more : pointerOps.Reads c rest (ops, false) u) :
    pointerOps.Reads c (t :: s) (.pointer q :: ops, false) u := by
  have noAttribute : attributeTokens (t :: s) = [] := attributeTokens_of_punct kind (by decide)
  rw [pointerOps, reads_bind] at more ⊢
  obtain ⟨pieces, s', collected, eq⟩ := more
  refine ⟨[some (.pointer q)] ++ pieces, s', ?_, by simpa using eq⟩
  refine reads_collect_more _ rest ?_ (Nat.lt_succ_of_le shorter) collected
  simpa [reads_skipAttributes noAttribute, Token.is, kind, and_assoc] using quals

theorem pointerOps_reference {p : Punct} {op : TypeOp} (kind : t.kind = .punct p)
    (spells : p = .amp ∧ op = .reference ∨ p = .ampAmp ∧ op = .rvalueReference)
    (more : pointerOps.Reads c s (ops, false) u) :
    pointerOps.Reads c (t :: s) (op :: ops, false) u := by
  have other : p ≠ .lbracket := by rcases spells with ⟨rfl, -⟩ | ⟨rfl, -⟩ <;> decide
  have noAttribute : attributeTokens (t :: s) = [] := attributeTokens_of_punct kind other
  rw [pointerOps, reads_bind] at more ⊢
  obtain ⟨pieces, s', collected, eq⟩ := more
  refine ⟨[some op] ++ pieces, s', ?_, by simpa using eq⟩
  refine reads_collect_more _ s ?_ (Nat.lt_succ_self _) collected
  rcases spells with ⟨rfl, rfl⟩ | ⟨rfl, rfl⟩ <;>
    simp [reads_skipAttributes noAttribute, Token.is, kind, and_assoc]

/-! ### Specifiers -/

section Specifiers

variable {P : Nested} {record : Option String} {specs : Specifiers}

/-- Whether no specifier begins with a token once there is a type. -/
def endsSpecifiers (t : Token) : Bool :=
  match t.kind with
  | .punct _ => true
  | .identifier => !ignoredSpecifiers.contains t.text
  | _ => false

theorem specifierStep_stop (hasType : specs.hasType = true) (stops : endsSpecifiers (next c s) = true)
    (noAttribute : attributeTokens s = []) :
    (specifierStep P record specs).Reads c s (specs, false) s := by
  unfold endsSpecifiers at stops
  simp only [specifierStep, reads_bind, reads_skipAttributes noAttribute, reads_peek]
  refine ⟨(), s, rfl, next c s, s, ⟨rfl, rfl⟩, ?_⟩
  split at stops
  · rename_i p kind
    cases p <;> simp [kind, hasType]
  · rename_i kind
    simp only [Bool.not_eq_true', List.contains_eq_mem, decide_eq_false_iff_not] at stops
    simp [kind, stops, hasType]
  · cases stops

theorem specifierStep_primitive {k : Keyword} (kind : (next c s).kind = .kw k)
    (noAttribute : attributeTokens s = []) (primitive : k.isPrimitive = true)
    (noBase : specs.base = none) (noBody : specs.defined = none) :
    (specifierStep P record specs).Reads c s
      ({ specs with primitives := k :: specs.primitives }, true) (s.drop 1) := by
  simp only [specifierStep, reads_bind, reads_skipAttributes noAttribute, reads_peek]
  refine ⟨(), s, rfl, next c s, s, ⟨rfl, rfl⟩, ?_⟩
  rw [kind]
  cases k <;> first
    | exact absurd primitive Bool.false_ne_true
    | simp [noBase, noBody, Keyword.isPrimitive]

theorem specifiers_primitives {ks : List Keyword} {ts : List Token} {last : Specifiers}
    (spelled : Spelled ts (ks.map .kw)) (primitive : ∀ k ∈ ks, k.isPrimitive = true)
    (noBase : specs.base = none) (noBody : specs.defined = none)
    (more : (loop (specifierStep P record)
      { specs with primitives := ks.reverse ++ specs.primitives }).Reads c s last u) :
    (loop (specifierStep P record) specs).Reads c (ts ++ s) last u := by
  induction ks generalizing specs ts with
  | nil =>
    cases spelled
    exact more
  | cons k ks ih =>
    obtain - | @⟨t, _, ts, _, ⟨kind, -⟩, spelled⟩ := spelled
    have arithmetic := primitive k (by simp)
    have noAttribute : attributeTokens (t :: (ts ++ s)) = [] :=
      attributeTokens_of_kw kind (by rintro rfl; cases arithmetic)
    refine reads_loop_more _ (ts ++ s)
      (specifierStep_primitive kind noAttribute arithmetic noBase noBody) (by simp) ?_
    refine ih spelled (fun k mem => primitive k (by simp [mem])) noBase noBody ?_
    simpa using more

theorem specifierStep_qualifier {k : Keyword} (kind : t.kind = .kw k)
    (qualifier : k = .const ∨ k = .volatile) :
    (specifierStep P record specs).Reads c (t :: s)
      ({ specs with qualifiers := specs.qualifiers.union ⟨k = .const, k = .volatile⟩ }, true) s := by
  have noAttribute : attributeTokens (t :: s) = [] :=
    attributeTokens_of_kw kind (by rintro rfl; simp at qualifier)
  simp only [specifierStep, reads_bind, reads_skipAttributes noAttribute, reads_peek]
  refine ⟨(), t :: s, rfl, t, t :: s, ⟨rfl, rfl⟩, ?_⟩
  rw [kind]
  rcases qualifier with rfl | rfl <;> simp [Qualifiers.union]

theorem primitiveOf_keywords (p : Primitive) : primitiveOf p.keywords.reverse = some p := by
  cases p <;> decide

theorem isPrimitive_keywords (p : Primitive) : ∀ k ∈ p.keywords, k.isPrimitive = true := by
  cases p <;> decide

/-- The specifiers that name a type, behind `typedef` or not. -/
def namingSpecifiers (isTypedef : Bool) (q : Qualifiers) (p : Primitive) : Specifiers :=
  { isTypedef, qualifiers := q, primitives := p.keywords.reverse }

theorem ty_namingSpecifiers (isTypedef : Bool) (q : Qualifiers) (p : Primitive) :
    (namingSpecifiers isTypedef q p).ty = some (.withQualifiers q (.primitive p)) := by
  simp [Specifiers.ty, namingSpecifiers, primitiveOf_keywords]

theorem specifiers_qualifiers {isTypedef : Bool} {ts : List Token} {last : Specifiers}
    (spelled : Spelled ts q.words)
    (more : (loop (specifierStep P record) { isTypedef, qualifiers := q }).Reads c s last u) :
    (loop (specifierStep P record) { isTypedef }).Reads c (ts ++ s) last u := by
  obtain ⟨_ | _, _ | _⟩ := q
  · cases spelled
    exact more
  · obtain - | ⟨⟨kind, -⟩, ⟨⟩⟩ := spelled
    exact reads_loop_more _ _ (specifierStep_qualifier kind (.inr rfl)) (by simp) more
  · obtain - | ⟨⟨kind, -⟩, ⟨⟩⟩ := spelled
    exact reads_loop_more _ _ (specifierStep_qualifier kind (.inl rfl)) (by simp) more
  · obtain - | ⟨⟨kind, -⟩, - | ⟨⟨kind', -⟩, ⟨⟩⟩⟩ := spelled
    refine reads_loop_more _ _ (specifierStep_qualifier kind (.inl rfl)) (by simp) ?_
    exact reads_loop_more _ _ (specifierStep_qualifier kind' (.inr rfl)) (by simp) more

theorem specifiers_base {isTypedef : Bool} {ts : List Token} {p : Primitive}
    (spelled : Spelled ts (baseWords q p)) (stops : endsSpecifiers (next c s) = true)
    (noAttribute : attributeTokens s = []) :
    (loop (specifierStep P record) { isTypedef }).Reads c (ts ++ s)
      (namingSpecifiers isTypedef q p) s := by
  obtain ⟨qualifiers, keywords, rfl, spelledQ, spelledP⟩ := spelled.exists_append
  rw [List.append_assoc]
  refine specifiers_qualifiers spelledQ ?_
  refine specifiers_primitives spelledP (isPrimitive_keywords p) rfl rfl ?_
  rw [List.append_nil]
  refine reads_loop_stop (specifierStep_stop ?_ stops noAttribute)
  cases p <;> rfl

theorem isQualifier_of_endsSpecifiers (stops : endsSpecifiers t = true) : isQualifier t = false := by
  unfold endsSpecifiers at stops
  split at stops <;> simp_all [isQualifier, Token.isKw]

theorem Follows.endsSpecifiers_eq (h : Follows s) : endsSpecifiers (next c s) = true := by
  obtain ⟨p, -, kind⟩ := @Follows.kind c s h
  simp [endsSpecifiers, kind]

end Specifiers

/-! ### Declarators -/

section Declarators

variable {P : Nested} {m : Nat} {x : Option String} {pre sufs : List TypeOp} {ts : List Token}
  {words : List Word} {op : TypeOp}

/-- A declarator that is read with the operators `pre` in front and the others within. -/
def DeclaratorReads (P : Nested) (c : Context) (s : List Token) (x : Option String)
    (pre ops : List TypeOp) (u : List Token) : Prop :=
  ∀ first, ∃ core sufs mid mid', pointerOps.Reads c s (pre, false) mid ∧
    (declaratorCore P first false).Reads c mid core mid' ∧ (suffixes P).Reads c mid' sufs u ∧
    core.name = x.map .plain ∧ core.qualified = false ∧ sufs.reverse ++ core.ops = ops

theorem DeclaratorReads.reads (h : DeclaratorReads P c s x pre ops u) :
    ∃ d, (declarator P).Reads c s d u ∧ d.name = x.map .plain ∧ d.qualified = false ∧
      d.ops = pre ++ ops := by
  obtain ⟨core, sufs, mid, mid', operators, reads, behind, name, qualified, rfl⟩ := h (next c s)
  refine ⟨{ core with ops := pre ++ sufs.reverse ++ core.ops }, ?_, name, qualified, by simp⟩
  simp only [declarator, reads_bind, reads_peek]
  refine ⟨_, _, ⟨rfl, rfl⟩, (pre, false), mid, operators, core, mid', reads, sufs, u, behind, ?_⟩
  simp

/-- The words of an array or parameter list, which are read before the other suffixes. -/
structure SuffixWords (words : List Word) (op : TypeOp) : Prop where
  reads : ∀ {m : Nat} {c : Context} {ts rest u : List Token} {sufs : List TypeOp},
    words.length ≤ m → Spelled ts words → Follows rest → (suffixes (.upTo m)).Reads c rest sufs u →
      (suffixes (.upTo m)).Reads c (ts ++ rest) (op :: sufs) u
  follows : ∀ {ts rest : List Token}, Spelled ts words → Follows (ts ++ rest)
  open_ : ∀ w ∈ words.head?, w ∉ [.punct .rparen, .punct .semicolon]

/-- The words of a declarator with the operators `pre` in front, behind which suffixes may follow. These
apply before `pre`. -/
structure DeclaratorWords (words : List Word) (x : Option String) (pre ops : List TypeOp) : Prop where
  reads : ∀ {m : Nat} {c : Context} {ts rest u : List Token} {sufs : List TypeOp},
    words.length ≤ m → Spelled ts words → Follows rest → (suffixes (.upTo m)).Reads c rest sufs u →
      DeclaratorReads (.upTo m) c (ts ++ rest) x pre (sufs.reverse ++ ops) u
  starts : ∀ {c : Context} {ts rest : List Token}, Spelled ts words → Follows rest →
    endsSpecifiers (next c (ts ++ rest)) = true ∧ attributeTokens (ts ++ rest) = []
  grouped : pre ≠ [] → ∃ p ∈ [Punct.star, .amp, .ampAmp], words.head? = some (.punct p)
  open_ : ∀ w ∈ words.head?, w ∉ [.punct .rparen, .punct .semicolon]
  named : x ≠ none → words ≠ []

theorem suffixes_stop (bracket : (next c s).is .lbracket = false) (paren : (next c s).is .lparen = false)
    (noAttribute : attributeTokens s = []) : (suffixes P).Reads c s [] s := by
  refine reads_collect_stop ?_
  simp [reads_skipAttributes noAttribute, bracket, paren, and_assoc]

theorem declaratorWords_abstract : DeclaratorWords [] none [] [] where
  reads := by
    intro m c ts rest u sufs _ spelled follows behind first
    cases spelled
    refine ⟨⟨none, false, false, first, []⟩, sufs, rest, rest,
      pointerOps_stop follows.isOperator_eq_false follows.attributeTokens_eq, ?_, behind, rfl, rfl, rfl⟩
    simp only [declaratorCore, reads_bind, reads_peek]
    refine ⟨_, _, ⟨rfl, rfl⟩, false, rest, follows.isGrouping, ?_⟩
    have notName : ((next c rest).kind == .identifier) = false := by simp [follows.not_identifier]
    have noScope : (next c rest).is .colonColon = false := follows.is_eq_false (by decide)
    have noTilde : (next c rest).is .tilde = false := follows.is_eq_false (by decide)
    simp [notName, noScope, follows.isKw_eq_false, noTilde]
  starts := by
    intro c ts rest spelled follows
    cases spelled
    exact ⟨follows.endsSpecifiers_eq, follows.attributeTokens_eq⟩
  grouped := fun some_ => absurd rfl some_
  open_ := by simp
  named := fun some_ => absurd rfl some_

theorem exists_name_of_spelled {x : OrdinaryName} {ts : List Token}
    (h : Spelled ts [.name x.toIdentifier]) : ∃ t, ts = [t] ∧ t.kind = .identifier ∧ t.text = x.text := by
  obtain - | @⟨t, _, _, _, ⟨kind, text⟩, ⟨⟩⟩ := h
  exact ⟨t, rfl, kind, by simpa [Word.chars] using text⟩

theorem declaratorSegment_plain (less : (next c s).is .less = false)
    (scope : (next c s).is .colonColon = false) :
    (declaratorSegment P).Reads c (t :: s) (t.text, false) s := by
  simp [declaratorSegment, less, scope, and_assoc]

theorem declaratorName_plain (kind : t.kind = .identifier) (less : (next c s).is .less = false)
    (scope : (next c s).is .colonColon = false) :
    (declaratorName P).Reads c (t :: s) (.plain t.text, false) s := by
  have segment := @declaratorSegment_plain c s t P less scope
  simp only [declaratorName, reads_bind]
  refine ⟨false, t :: s, by simp [Token.is, kind], (some (.plain t.text), false), s, ?_, by simp⟩
  refine reads_loop_stop ?_
  simp only [reads_bind, reads_peek]
  refine ⟨t, t :: s, ⟨rfl, rfl⟩, ?_⟩
  simpa [Token.is, Token.isKw, kind] using segment

theorem declaratorWords_name (x : OrdinaryName) :
    DeclaratorWords [.name x.toIdentifier] (some x.text) [] [] where
  reads := by
    intro m c ts rest u sufs _ spelled follows behind first
    obtain ⟨t, rfl, kind, text⟩ := exists_name_of_spelled spelled
    have plain := x.plain
    rw [← text, List.mem_append, not_or] at plain
    have noConvention : t.text ∉ callingConventions := by
      intro mem
      exact plain.2 (List.mem_append_right _ mem)
    have noOperator : isOperator t = false := by
      simp [isOperator, Token.is, Token.isWordIn, kind, noConvention]
    have noLess : (next c rest).is .less = false := follows.is_eq_false (by decide)
    have noScope : (next c rest).is .colonColon = false := follows.is_eq_false (by decide)
    refine ⟨⟨some (.plain x.text), false, false, t, []⟩, sufs, t :: rest, rest,
      pointerOps_stop noOperator (attributeTokens_of_name kind plain.1), ?_, behind, rfl, rfl, rfl⟩
    have named := @declaratorName_plain c rest t (.upTo m) kind noLess noScope
    rw [text] at named
    simpa [declaratorCore, Grammar.isGrouping, Token.is, kind, and_assoc] using named
  starts := by
    intro c ts rest spelled follows
    obtain ⟨t, rfl, kind, text⟩ := exists_name_of_spelled spelled
    have plain := x.plain
    rw [← text, List.mem_append, not_or] at plain
    exact ⟨by simp [endsSpecifiers, kind, plain.2], attributeTokens_of_name kind plain.1⟩
  grouped := fun some_ => absurd rfl some_
  open_ := by simp
  named := by simp

/-- An operator in front of a declarator. -/
theorem DeclaratorWords.cons {p : Punct} (front : List Word) (h : DeclaratorWords words x pre ops)
    (operator : p ∈ [Punct.star, .amp, .ampAmp])
    (step : ∀ {c : Context} {ts s u : List Token} {more : List TypeOp},
      Spelled ts (.punct p :: front) → isQualifier (next c s) = false →
        pointerOps.Reads c s (more, false) u → pointerOps.Reads c (ts ++ s) (op :: more, false) u) :
    DeclaratorWords (.punct p :: front ++ words) x (op :: pre) ops where
  reads := by
    intro m c ts rest u sufs enough spelled follows behind first
    obtain ⟨own, others, rfl, spelledOwn, spelledOthers⟩ := spelled.exists_append
    have enough' : words.length ≤ m := by
      simp only [List.length_append, List.length_cons] at enough
      omega
    obtain ⟨core, sufs', mid, mid', operators, reads⟩ := h.reads enough' spelledOthers follows behind first
    have notQualifier : isQualifier (next c (others ++ rest)) = false :=
      isQualifier_of_endsSpecifiers (h.starts spelledOthers follows).1
    rw [List.append_assoc]
    exact ⟨core, sufs', mid, mid', step spelledOwn notQualifier operators, reads⟩
  starts := by
    intro c ts rest spelled follows
    obtain - | ⟨⟨kind, -⟩, -⟩ := spelled
    refine ⟨by simp [endsSpecifiers, kind, Word.kind], attributeTokens_of_punct kind ?_⟩
    rintro rfl
    simp at operator
  grouped := fun _ => ⟨p, operator, rfl⟩
  open_ := by
    rintro w ⟨⟩
    simp only [List.mem_cons, List.not_mem_nil, or_false] at operator
    rcases operator with rfl | rfl | rfl <;> decide
  named := by simp

theorem DeclaratorWords.pointer (h : DeclaratorWords words x pre ops) :
    DeclaratorWords (.punct .star :: q.words ++ words) x (.pointer q :: pre) ops := by
  refine h.cons q.words (by simp) ?_
  intro c ts s u more spelled stops operators
  obtain - | ⟨⟨kind, -⟩, spelledQ⟩ := spelled
  exact pointerOps_pointer kind (pointerQualifiers_words spelledQ stops) (by simp) operators

theorem DeclaratorWords.referenceOf {p : Punct} (h : DeclaratorWords words x pre ops)
    (spells : p = .amp ∧ op = .reference ∨ p = .ampAmp ∧ op = .rvalueReference) :
    DeclaratorWords (.punct p :: words) x (op :: pre) ops := by
  have operator : p ∈ [Punct.star, .amp, .ampAmp] := by
    rcases spells with ⟨rfl, -⟩ | ⟨rfl, -⟩ <;> simp
  refine h.cons [] operator ?_
  intro c ts s u more spelled _ operators
  obtain - | ⟨⟨kind, -⟩, ⟨⟩⟩ := spelled
  exact pointerOps_reference kind spells operators

/-- A suffix behind a declarator that has no operators in front. -/
theorem DeclaratorWords.suffix {more : List Word} (h : DeclaratorWords words x [] ops)
    (hs : SuffixWords more op) : DeclaratorWords (words ++ more) x [] (op :: ops) where
  reads := by
    intro m c ts rest u sufs enough spelled follows behind
    obtain ⟨own, others, rfl, spelledOwn, spelledOthers⟩ := spelled.exists_append
    rw [List.length_append] at enough
    have tail := hs.reads (by omega) spelledOthers follows behind
    have whole := h.reads (by omega) spelledOwn (hs.follows spelledOthers) tail
    simpa [List.append_assoc] using whole
  starts := by
    intro c ts rest spelled follows
    obtain ⟨own, others, rfl, spelledOwn, spelledOthers⟩ := spelled.exists_append
    rw [List.append_assoc]
    exact h.starts spelledOwn (hs.follows spelledOthers)
  grouped := fun some_ => absurd rfl some_
  open_ := by
    cases words with
    | nil => exact hs.open_
    | cons w words => exact h.open_
  named := by
    intro some_ none_
    exact h.named some_ (List.append_eq_nil_iff.1 none_).1

theorem DeclaratorWords.enclosed (h : DeclaratorWords words x pre ops) :
    DeclaratorWords (HeaderDecl.enclosed (!pre.isEmpty) words) x [] (pre ++ ops) := by
  cases pre with
  | nil => exact h
  | cons op pre =>
    refine ⟨?_, ?_, fun some_ => absurd rfl some_, by simp [HeaderDecl.enclosed],
      by simp [HeaderDecl.enclosed]⟩
    · intro m c ts rest u sufs enough spelled follows behind first
      obtain - | @⟨t, _, ts, _, ⟨kind, -⟩, spelledRest⟩ := spelled
      have spelledBoth : Spelled ts (words ++ [.punct .rparen]) := spelledRest
      obtain ⟨inner, close, rfl, spelledInner, spelledClose⟩ := spelledBoth.exists_append
      obtain - | @⟨close, _, _, _, ⟨closes, -⟩, ⟨⟩⟩ := spelledClose
      simp only [HeaderDecl.enclosed, List.isEmpty_cons, Bool.not_false, if_true, List.length_append,
        List.length_cons] at enough
      -- The declarator within is read one level deeper, and it is shorter by the parentheses.
      obtain ⟨m, rfl⟩ : ∃ n, m = n + 1 := ⟨m - 1, by omega⟩
      have ends : Follows (close :: rest) := .ends closes (by simp)
      have noSuffix : (suffixes (.upTo m)).Reads c (close :: rest) [] (close :: rest) :=
        suffixes_stop (by simp [Token.is, closes, Word.kind]) (by simp [Token.is, closes, Word.kind])
          ends.attributeTokens_eq
      obtain ⟨d, reads, name, qualified, operators⟩ :=
        (h.reads (by omega) spelledInner ends noSuffix).reads
      -- The first operator tells the parenthesis from one that opens a parameter list.
      obtain ⟨p, operator, head⟩ := h.grouped (by simp)
      obtain ⟨words, rfl⟩ : ∃ ws, words = .punct p :: ws := by
        cases words <;> simp_all
      obtain - | @⟨n, _, inner, _, ⟨kind', -⟩, -⟩ := spelledInner
      have grouping : Grammar.isGrouping.Reads c (t :: n :: inner ++ close :: rest) true
          (t :: n :: inner ++ close :: rest) := by
        simp only [List.mem_cons, List.not_mem_nil, or_false] at operator
        rcases operator with rfl | rfl | rfl <;>
          simp [Grammar.isGrouping, Token.is, kind, kind', Word.kind]
      have noOperator : isOperator t = false := by
        simp [isOperator, Token.is, Token.isWordIn, kind, Word.kind]
      have noAttribute : attributeTokens (t :: n :: inner ++ close :: rest) = [] :=
        attributeTokens_of_punct kind (by decide)
      refine ⟨d, sufs, t :: n :: inner ++ close :: rest, rest, ?_, ?_, behind, name, qualified, ?_⟩
      · simpa using pointerOps_stop (s := t :: n :: inner ++ close :: rest) noOperator noAttribute
      · simp only [declaratorCore, reads_bind, reads_peek]
        refine ⟨_, _, ⟨rfl, rfl⟩, true, _, grouping, ?_⟩
        simp only [if_true, reads_bind, reads_advance]
        refine ⟨t, _, ⟨rfl, rfl⟩, d, close :: rest, reads, close, rest, ?_, by simp⟩
        simp [Token.is, closes, Word.kind]
      · simp [operators]
    · intro c ts rest spelled follows
      obtain - | ⟨⟨kind, -⟩, -⟩ := spelled
      exact ⟨by simp [endsSpecifiers, kind, Word.kind], attributeTokens_of_punct kind (by decide)⟩

end Declarators

end HeaderDecl.Grammar
