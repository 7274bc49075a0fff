import Mathlib
import HeaderDecl.Proofs.DeclaredParts
import HeaderDecl.Proofs.ParserResults

/-!
What stays of a declaration that is reported as skipped: the items of a linkage block that is not closed,
and what stands in front of the first declarator that is refused. Of anything else nothing stays.
-/

namespace HeaderDecl.Grammar

open HeaderDecl.Grammar.Parser

variable {c : Context} {s t u : Cursor}

/-! ### Declarations with specifiers and declarators -/

/-- Specifiers and declarators are read from some place on, up to a semicolon or a body. -/
def PartsRead (P : Nested) (member : Option MemberContext) (c : Context) (s : Cursor)
    (specs : Specifiers) (ds : List (Declarator × Tail)) : Prop :=
  ∃ t u, (specifiers P (member.bind MemberContext.record)).Yields c s specs t ∧
    specs.isFriend = false ∧ (next c t.ahead).is .semicolon = false ∧ (declarators P).Yields c t ds u

/-- Where the specifiers of a declaration begin: at its front, or behind template parameters. -/
inductive Begins (P : Nested) (c : Context) (s : Cursor) :
    Option (List (TemplateParam TypeExpr)) → Cursor → Prop
  | plain (ahead : (next c s.ahead).isKw .template = false ∧ (next c s.ahead).isKw .usingKw = false ∧
      (next c s.ahead).isWordIn ["static_assert"] = false) : Begins P c s none s
  | template {params : List (TemplateParam TypeExpr)} {t : Cursor}
      (keyword : (next c s.ahead).isKw .template) (list : (next c (s.drop 1).ahead).is .less)
      (read : (templateParams P).Yields c (s.drop 1) params t)
      (ahead : (next c t.ahead).isKw .template = false ∧ (next c t.ahead).isKw .usingKw = false ∧
        (next c t.ahead).isKw .friend = false) : Begins P c s (some params) t

section

variable {P : Nested} {member : Option MemberContext}
  {template : Option (List (TemplateParam TypeExpr))} {origin : Origin} {d : Declared}

theorem not_failure_skipped (h : skipped.Yields c s d u) : d.failure = none := by
  simp only [skipped, yields_bind, yields_pure] at h
  obtain ⟨_, _, -, rfl, -⟩ := h
  rfl

theorem not_failure_unmodeled {start : Cursor} {what : String}
    (h : (unmodeled start what).Yields c s d u) : d.failure = none := by
  simp only [unmodeled, yields_bind] at h
  obtain ⟨first, _, -, place, _, -, h⟩ := h
  split at h
  · obtain ⟨_, _, -, rfl, -⟩ := yields_bind.mp h
    rfl
  · obtain ⟨rfl, -⟩ := yields_pure.mp h
    rfl

theorem not_failure_declareAlone {specs : Specifiers} :
    (declareAlone specs member template origin).failure = none := by
  unfold declareAlone
  split
  · rfl
  · split <;> rfl

/-- A declaration fails only once its parts have been read. -/
theorem failed_declaration (h : (declaration P member template origin).Yields c s d u)
    (failed : d.failure.isSome) :
    ∃ specs ds, PartsRead P member c s specs ds ∧
      d = declare specs member template origin c.scope ds := by
  simp only [declaration, yields_bind] at h
  obtain ⟨specs, t, read, h⟩ := h
  split at h
  · simp [not_failure_skipped h] at failed
  · rename_i friend
    obtain ⟨alone, _, taken, h⟩ := yields_bind.mp h
    obtain ⟨rfl, rfl⟩ := yields_take.mp taken
    split at h
    · obtain ⟨rfl, -⟩ := yields_pure.mp h
      simp [not_failure_declareAlone] at failed
    · rename_i more
      simp only [yields_bind, yields_scope, yields_reportAll, yields_pure] at h
      obtain ⟨ds, _, many, _, _, ⟨rfl, rfl⟩, _, _, rfl, rfl, rfl⟩ := h
      exact ⟨specs, ds, ⟨t, _, read, by simpa using friend, by simpa using more, many⟩, rfl⟩

theorem PartsRead.yields {specs : Specifiers} {ds : List (Declarator × Tail)}
    (h : PartsRead P member c s specs ds) :
    ∃ u, (declaration P member template origin).Yields c s
      (declare specs member template origin c.scope ds) u := by
  obtain ⟨t, u, read, friend, more, many⟩ := h
  refine ⟨u, ?_⟩
  simp only [declaration, yields_bind]
  refine ⟨specs, t, read, ?_⟩
  rw [if_neg (by simp [friend])]
  refine yields_bind.mpr ⟨false, t, yields_take.mpr ⟨more, by simp [more]⟩, ?_⟩
  simp only [Bool.false_eq_true, if_false, yields_bind, yields_scope, yields_reportAll, yields_pure]
  exact ⟨ds, u, many, c.scope, u, ⟨rfl, rfl⟩, (), u, rfl, rfl, rfl⟩

/-- What fails once it has been read has parts that were read. -/
theorem failed_anyDeclaration (h : (anyDeclaration P member).Yields c s d u)
    (failed : d.failure.isSome) :
    ∃ template t, Begins P c s template t ∧
      (declaration P member template (next c s.ahead).loc).Yields c t d u := by
  obtain ⟨_, _, ahead, h⟩ := yields_bind.mp h
  obtain ⟨rfl, rfl⟩ := yields_peek.mp ahead
  split at h
  · rename_i keyword
    simp only [Grammar.template, yields_bind, yields_here, yields_peek, yields_consumeKw,
      yields_isNext] at h
    obtain ⟨_, _, ⟨rfl, rfl⟩, _, _, ⟨rfl, rfl⟩, _, _, ⟨-, -, rfl⟩, _, _, ⟨rfl, rfl⟩, h⟩ := h
    split at h
    · rename_i list
      simp only [yields_bind, yields_peek] at h
      obtain ⟨params, t, read, _, _, ⟨rfl, rfl⟩, h⟩ := h
      split at h
      · simp [not_failure_skipped h] at failed
      · split at h
        · simp [not_failure_unmodeled h] at failed
        · split at h
          · simp [not_failure_unmodeled h] at failed
          · exact ⟨_, t, .template keyword list read (by simp [*]), h⟩
    · simp [not_failure_skipped h] at failed
  · split at h
    · simp only [aliasDeclaration, yields_bind] at h
      obtain ⟨_, _, -, _, _, -, _, _, -, h⟩ := h
      split at h
      · simp only [yields_bind, yields_pure] at h
        obtain ⟨_, _, -, _, _, -, _, _, -, _, _, -, rfl, -⟩ := h
        cases failed
      · simp [not_failure_skipped h] at failed
    · split at h
      · simp [not_failure_skipped h] at failed
      · exact ⟨none, s, .plain (by simp [*]), h⟩

theorem Begins.yields (h : Begins P c s template t)
    (read : (declaration P member template (next c s.ahead).loc).Yields c t d u) :
    (anyDeclaration P member).Yields c s d u := by
  refine yields_bind.mpr ⟨_, s, yields_peek.mpr ⟨rfl, rfl⟩, ?_⟩
  cases h with
  | plain ahead => simpa [ahead] using read
  | template keyword list params ahead =>
    rw [if_pos keyword]
    simp only [Grammar.template, yields_bind, yields_here, yields_peek, yields_consumeKw,
      yields_isNext]
    refine ⟨s, s, ⟨rfl, rfl⟩, _, s, ⟨rfl, rfl⟩, _, s.drop 1, ⟨keyword, rfl, rfl⟩, true, s.drop 1,
      ⟨list, rfl⟩, ?_⟩
    simp only [if_true, yields_bind, yields_peek]
    refine ⟨_, t, params, _, t, ⟨rfl, rfl⟩, ?_⟩
    simpa [ahead] using read

end

/-! ### Items -/

/-- Whether a namespace or an alias of one begins here. -/
def opensNamespace (c : Context) (s : Cursor) : Bool :=
  (next c s.ahead).isKw .namespaceKw ||
    ((next c s.ahead).isKw .inlineKw && (next c (s.drop 1).ahead).isKw .namespaceKw)

/-- Whether a linkage block begins here. -/
def opensLinkage (c : Context) (s : Cursor) : Bool :=
  (next c s.ahead).isKw .externKw && (next c (s.drop 1).ahead).kind == .string &&
    (next c (s.drop 2).ahead).is .lbrace

theorem next_drop (n : Nat) : next c (s.drop n).ahead = s.ahead[n]?.getD c.eof := by
  simp [next]

section

variable {P : Nested} {block : Parser (List Item)} {d : Declared} {items : List Item}

theorem not_failure_namespaceBlock {isInline : Bool}
    (h : (namespaceBlock block isInline).Yields c s d u) : d.failure = none := by
  simp only [namespaceBlock, yields_bind] at h
  obtain ⟨_, _, -, _, _, -, _, _, -, h⟩ := h
  split at h
  · exact not_failure_skipped h
  · simp only [yields_bind, yields_pure] at h
    obtain ⟨_, _, -, _, _, -, _, _, -, _, _, -, _, _, -, rfl, -⟩ := h
    rfl

/-- A linkage block fails only where it is not closed. Its items stay. -/
theorem failed_linkageBlock (h : (linkageBlock block).Yields c s d u) (failed : d.failure.isSome) :
    ∃ items, block.Yields c (s.drop 3) items u ∧ (next c u.ahead).is .rbrace = false ∧
      d.items = items ∧ d.fields = [] ∧ d.methods = [] := by
  simp only [linkageBlock, yields_bind, yields_consumeKw, yields_consumeKind, yields_consume] at h
  obtain ⟨_, _, ⟨-, -, rfl⟩, _, _, ⟨-, -, rfl⟩, _, _, ⟨-, -, rfl⟩, items, t, read, r, t', closing, h⟩ := h
  rcases yields_attempt.mp closing with ⟨_, closed, rfl⟩ | ⟨e, unclosed, rfl, rfl⟩
  · obtain ⟨rfl, -⟩ := yields_pure.mp h
    cases failed
  · obtain ⟨rfl, rfl⟩ := yields_pure.mp h
    have behind : ((s.drop 1).drop 1).drop 1 = s.drop 3 := Cursor.ext (by simp)
    refine ⟨items, behind ▸ read, ?_, rfl, rfl, rfl⟩
    rw [Bool.eq_false_iff]
    intro brace
    exact unclosed.not_yields (yields_consume.mpr ⟨brace, rfl, rfl⟩)

theorem unclosed_linkageBlock (opens : opensLinkage c s) (read : block.Yields c (s.drop 3) items u)
    (unclosed : (next c u.ahead).is .rbrace = false) :
    ∃ e, (linkageBlock block).Yields c s { items, failure := some e } u := by
  obtain ⟨e, fails⟩ := fails_consume unclosed
  have ahead : (next c s.ahead).isKw .externKw ∧ (next c (s.drop 1).ahead).kind = .string ∧
      (next c (s.drop 2).ahead).is .lbrace := by
    simpa [opensLinkage, and_assoc] using opens
  refine ⟨e, ?_⟩
  simp only [linkageBlock, yields_bind, yields_consumeKw, yields_consumeKind, yields_consume]
  refine ⟨_, s.drop 1, ⟨ahead.1, rfl, rfl⟩, _, s.drop 2, ⟨ahead.2.1, rfl, Cursor.ext ?_⟩, _, s.drop 3,
    ⟨ahead.2.2, rfl, Cursor.ext ?_⟩, items, u, read, .error e, u, ?_⟩
  · simp
  · simp
  · exact ⟨yields_attempt.mpr (.inr ⟨e, fails, rfl, rfl⟩), yields_pure.mpr ⟨rfl, rfl⟩⟩

/-- What fails once it has been read is no namespace. -/
theorem not_opensNamespace (h : (item P block).Yields c s d u) (failed : d.failure.isSome) :
    opensNamespace c s = false := by
  rw [Bool.eq_false_iff]
  intro opens
  simp only [item, yields_bind, yields_peek, yields_nth, ← next_drop] at h
  obtain ⟨_, _, ⟨rfl, rfl⟩, _, _, ⟨rfl, rfl⟩, h⟩ := h
  split at h
  · simp [not_failure_namespaceBlock h] at failed
  · split at h
    · obtain ⟨_, _, -, h⟩ := yields_bind.mp h
      simp [not_failure_namespaceBlock h] at failed
    · simp_all [opensNamespace]

/-- An item that is no namespace is a linkage block or a declaration. -/
theorem yields_item (elsewhere : opensNamespace c s = false) :
    (item P block).Yields c s d u ↔
      (if opensLinkage c s then linkageBlock block else anyDeclaration P none).Yields c s d u := by
  obtain ⟨noNamespace, notInline⟩ := Bool.or_eq_false_iff.mp elsewhere
  simp only [item, yields_bind, yields_peek, yields_nth, ← next_drop]
  constructor
  · rintro ⟨_, _, ⟨rfl, rfl⟩, _, _, ⟨rfl, rfl⟩, h⟩
    rw [if_neg (Bool.eq_false_iff.mp noNamespace), if_neg (Bool.eq_false_iff.mp notInline)] at h
    simp only [yields_bind, yields_nth, ← next_drop] at h
    obtain ⟨_, _, ⟨rfl, rfl⟩, h⟩ := h
    exact h
  · intro h
    refine ⟨_, s, ⟨rfl, rfl⟩, _, s, ⟨rfl, rfl⟩, ?_⟩
    rw [if_neg (Bool.eq_false_iff.mp noNamespace), if_neg (Bool.eq_false_iff.mp notInline)]
    simp only [yields_bind, yields_nth, ← next_drop]
    exact ⟨_, s, ⟨rfl, rfl⟩, h⟩

end

/-! ### Calls -/

/-- What recovery stands around: an item of a block, or a member of a record. -/
inductive Call where
  | item (P : Nested) (block : Parser (List Item))
  | member (P : Nested) (m : MemberContext)

namespace Call

def parser : Call → Parser Declared
  | item P block => Grammar.item P block
  | member P m => anyDeclaration P (some m)

def nested : Call → Nested
  | item P _ => P
  | member P _ => P

def member? : Call → Option MemberContext
  | item _ _ => none
  | member _ m => some m

/-- Whether a declaration is read from here on, not a namespace or a block. -/
def single (call : Call) (c : Context) (s : Cursor) : Bool :=
  match call with
  | item _ _ => !opensNamespace c s && !opensLinkage c s
  | member _ _ => true

/-- The members of a record that stands at most so deep are read by such calls. -/
theorem parser_member (n : Nat) (m : MemberContext) :
    (Nested.upTo (n + 1)).member m = (Call.member (.upTo n) m).parser := rfl

end Call

/-- What a call leaves of what it is for, although it fails. -/
inductive LeavesPart (c : Context) (s : Cursor) : Call → Prop
  /-- The items of a linkage block that is not closed. -/
  | block {P : Nested} {block : Parser (List Item)} {items : List Item} {t : Cursor}
      (opens : opensNamespace c s = false ∧ opensLinkage c s) (read : block.Yields c (s.drop 3) items t)
      (unclosed : (next c t.ahead).is .rbrace = false) (some : items ≠ []) :
      LeavesPart c s (.item P block)
  /-- What stands in front of the first declarator that is refused. -/
  | declaration {call : Call} {template : Option (List (TemplateParam TypeExpr))} {t : Cursor}
      {specs : Specifiers} {ds : List (Declarator × Tail)} (single : call.single c s)
      (begins : Begins call.nested c s template t)
      (read : PartsRead call.nested call.member? c t specs ds)
      (first : DeclaresFirst specs
        (commonOf specs call.member? template (next c s.ahead).loc c.scope ds) ds) :
      LeavesPart c s call

theorem yields_call {call : Call} {d : Declared} (single : call.single c s) :
    call.parser.Yields c s d u ↔ (anyDeclaration call.nested call.member?).Yields c s d u := by
  cases call with
  | member P m => rfl
  | item P block =>
    have elsewhere : opensNamespace c s = false ∧ opensLinkage c s = false := by
      simpa [Call.single] using single
    rw [Call.parser, yields_item elsewhere.1, if_neg (by simp [elsewhere.2])]
    rfl

/-- What is left of a failed call is what it declares. -/
theorem LeavesPart.yields {call : Call} (h : LeavesPart c s call) :
    ∃ d u, call.parser.Yields c s d u ∧ ¬d.Empty := by
  cases h with
  | @block P block items t opens read unclosed some =>
    obtain ⟨e, run⟩ := unclosed_linkageBlock opens.2 read unclosed
    refine ⟨_, t, (yields_item opens.1).mpr (by rwa [if_pos opens.2]), ?_⟩
    exact fun empty => some empty.1
  | declaration single begins read first =>
    obtain ⟨u, run⟩ := read.yields
    exact ⟨_, u, (yields_call single).mpr (begins.yields run), fun empty => empty_declare.mp empty first⟩

/-- What a call that fails once it is read leaves is its part. -/
theorem leavesPart_of_failed {call : Call} {d : Declared} (h : call.parser.Yields c s d u)
    (failed : d.failure.isSome) (kept : ¬d.Empty) : LeavesPart c s call := by
  by_cases single : call.single c s
  · obtain ⟨template, t, begins, run⟩ := failed_anyDeclaration ((yields_call single).mp h) failed
    obtain ⟨specs, ds, read, rfl⟩ := failed_declaration run failed
    exact .declaration single begins read (not_not.mp (mt empty_declare.mpr kept))
  · cases call with
    | member P m => exact absurd rfl single
    | item P block =>
      have elsewhere := not_opensNamespace h failed
      have opens : opensLinkage c s := by simpa [Call.single, elsewhere] using single
      have run := (yields_item elsewhere).mp h
      rw [if_pos opens] at run
      obtain ⟨items, read, unclosed, rfl, fields, methods⟩ := failed_linkageBlock run failed
      exact .block ⟨elsewhere, opens⟩ read unclosed fun none => kept ⟨none, fields, methods⟩

/-- A declaration that is skipped is skipped as a whole, unless it is a linkage block that is not closed
or declares something in front of a declarator that is refused. -/
theorem skipped_whole_iff (call : Call) (c : Context) (s u : Cursor) (d : Declared)
    (run : (recovering call.parser).Yields c s d u) (failed : d.failure.isSome) :
    (d.items = [] ∧ d.fields = [] ∧ d.methods = []) ↔ ¬LeavesPart c s call := by
  rcases declared_of_recovering run with ⟨t, read⟩ | ⟨e, fails, rfl⟩
  · constructor
    · intro empty leaves
      obtain ⟨d', u', read', kept⟩ := leaves.yields
      obtain ⟨rfl, -⟩ := read.unique read'
      exact kept empty
    · intro leaves
      exact Classical.byContradiction fun kept => leaves (leavesPart_of_failed read failed kept)
  · refine ⟨fun _ leaves => ?_, fun _ => ⟨rfl, rfl, rfl⟩⟩
    obtain ⟨d', u', read', -⟩ := leaves.yields
    exact fails.not_yields read'

/-- The tokens of `int a, *;`, whose second declarator has no name. -/
def namelessTokens : List Token :=
  [.synthetic (.kw .int) "int", .synthetic .identifier "a", .synthetic (.punct .comma) ",",
    .synthetic (.punct .star) "*", .synthetic (.punct .semicolon) ";"]

/-- The call for the first item of a file with these tokens. -/
def namelessCall : Call := .item (.upTo 5) (block (.upTo 5) 5)

/-- What it declares, and why it fails: the variable in front of the nameless declarator stays. -/
def namelessDeclared : Declared where
  items := [.decl (.var ⟨"a", .primitive .int, false, false⟩) [] .synthetic]
  failure := some { cause := .expectedName, site := .synthetic (.punct .star) "*" }

theorem run_nameless :
    (recovering namelessCall.parser { eof := .eofAt .synthetic } (.ofTokens namelessTokens)).result =
      .ok (namelessDeclared, .ofTokens []) := by
  cbv

theorem skipped_whole_iff_nameless :
    ((recovering namelessCall.parser).Yields { eof := .eofAt .synthetic } (.ofTokens namelessTokens)
      namelessDeclared (.ofTokens []) ∧ namelessDeclared.failure.isSome) ∧
      ((namelessDeclared.items = [] ∧ namelessDeclared.fields = [] ∧ namelessDeclared.methods = []) ↔
        ¬LeavesPart { eof := .eofAt .synthetic } (.ofTokens namelessTokens) namelessCall) :=
  ⟨⟨run_nameless, rfl⟩, skipped_whole_iff _ _ _ _ _ run_nameless rfl⟩

/-- The call fails and leaves the variable, which is in the unit although its declaration is reported as
skipped. -/
theorem keeps_skipped_variable :
    (recovering namelessCall.parser).Yields { eof := .eofAt .synthetic } (.ofTokens namelessTokens)
      namelessDeclared (.ofTokens []) ∧ namelessDeclared.failure.isSome ∧ namelessDeclared.items ≠ [] ∧
      (parseUnit namelessTokens).1 = namelessDeclared.items ∧
      (parseUnit namelessTokens).2.map (·.finding.kind) = [.skippedDeclaration] :=
  ⟨run_nameless, rfl, nofun, by cbv, by cbv⟩

end HeaderDecl.Grammar
