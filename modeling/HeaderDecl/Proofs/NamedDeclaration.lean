import HeaderDecl.Grammar.Unit
import HeaderDecl.Proofs.NamedBase
import HeaderDecl.Proofs.RebasedTypes
import Mathlib

/-!
A declaration whose base type is a name is read like the one whose base type is `int`, and declares the
same with that type, unless the name is taken for a macro or goes on in the declarators.
-/

namespace HeaderDecl.Grammar

open HeaderDecl.Grammar.Parser

variable {c : Context} {s behind u front : List Token} {i t : Token} {P : Nested} {isTypedef : Bool}

/-- The specifiers of a declaration with the base type `int`. -/
def intSpecifiers (isTypedef : Bool) : Specifiers := { isTypedef, primitives := [.int] }

/-- The specifiers of a declaration with a name as its base type. -/
def nameSpecifiers (isTypedef : Bool) (name : String) : Specifiers :=
  { isTypedef, base := some (.path (.simple name)) }

/-- The declarators of a declaration, which may have none. -/
def declaratorList (P : Nested) : Parser (List (Declarator × Tail)) := do
  if ← take .semicolon then return [] else declarators P

/-! ### Declarations -/

theorem reads_declaration {specs : Specifiers} {member : Option MemberContext} {origin : Origin}
    {d : Declared} (run : (specifiers P (member.bind MemberContext.record)).Reads c s specs behind)
    (notFriend : specs.isFriend = false) (noBody : specs.defined = none) (noTag : specs.forward = none) :
    (declaration P member none origin).Reads c s d u ↔
      ∃ ds, (declaratorList P).Reads c behind ds u ∧
        (declare specs member none origin c.scope ds).reports = [] ∧
        declare specs member none origin c.scope ds = d := by
  have alone : declareAlone specs member none origin = {} := by
    simp [declareAlone, noBody, noTag]
  have nothing : declare specs member none origin c.scope [] = {} := by
    simp [declare, noBody, Common.declareAll]
  rw [declaration, reads_bind_of run]
  cases ends : (next c behind).is .semicolon with
  | true => simp [declaratorList, notFriend, ends, alone, nothing, and_assoc, and_comm]
  | false => simp [declaratorList, notFriend, ends, and_assoc]

theorem not_declaratorList_foreign {ds : List (Declarator × Tail)}
    (foreign : isForeign (next c s) = true) : ¬(declaratorList P).Reads c s ds u := by
  have open_ : (next c s).is .semicolon = false := foreign_is_eq_false foreign (by decide)
  simpa [declaratorList, open_] using not_declarators_foreign foreign

theorem specifiers_front {record : Option String} {specs : Specifiers}
    (marks : front.map Token.kind = if isTypedef then [.kw .typedef] else []) :
    (specifiers P record).Reads c (front ++ s) specs u ↔
      (loop (specifierStep P record) { isTypedef }).Reads c s specs u := by
  cases isTypedef with
  | false =>
    obtain rfl : front = [] := by simpa using marks
    rfl
  | true =>
    obtain ⟨f, rfl, kind⟩ : ∃ f, front = [f] ∧ f.kind = .kw .typedef := by
      simpa [List.map_eq_cons_iff, and_assoc] using marks
    have noAttribute : attributeTokens (f :: s) = [] := attributeTokens_of_kw kind (by decide)
    exact reads_loop_step _ s (specifierStep_marker noAttribute kind (by decide)) (Nat.lt_succ_self _)

theorem specifiers_int {record : Option String} {specs : Specifiers} (int : i.kind = .kw .int) :
    (loop (specifierStep P record) { isTypedef }).Reads c (i :: s) specs u ↔
      (loop (specifierStep P record) (intSpecifiers isTypedef)).Reads c s specs u :=
  reads_loop_step _ s
    (specifierStep_primitive int (attributeTokens_of_kw int (by decide)) rfl rfl rfl)
    (Nat.lt_succ_self _)

/-- The front of a declaration of type `int`, behind `typedef` or not, whose declarators begin at `behind`,
and a name to put in place of `int`. -/
structure NameForInt (c : Context) (isTypedef : Bool) (front : List Token) (i t : Token)
    (s behind : List Token) : Prop where
  marks : front.map Token.kind = if isTypedef then [.kw .typedef] else []
  int : i.kind = .kw .int
  -- Behind `int` nothing nests, and it makes no difference what record is around.
  alone : (specifiers .nothing none).Reads c (front ++ i :: s) (intSpecifiers isTypedef) behind
  name : t.kind = .identifier
  ordinary : t.text ∉ annotationWords ++ ignoredSpecifiers ++ ["static_assert"]
  shown : takenForMacro c s = false
  ends : goesOn c s = false

namespace NameForInt

variable {record : Option String}

theorem loop_int (h : NameForInt c isTypedef front i t s behind) :
    (loop (specifierStep .nothing none) (intSpecifiers isTypedef)).Reads c s
      (intSpecifiers isTypedef) behind :=
  (specifiers_int h.int).1 ((specifiers_front h.marks).1 h.alone)

theorem specifiers_int (h : NameForInt c isTypedef front i t s behind) :
    (specifiers P record).Reads c (front ++ i :: s) (intSpecifiers isTypedef) behind := by
  rw [specifiers_front h.marks, Grammar.specifiers_int h.int]
  exact (specifiers_typed rfl h.loop_int).1

theorem not_primitive (h : NameForInt c isTypedef front i t s behind) :
    (next c s).kind.isPrimitive = false := by
  cases kind : (next c s).kind with
  | kw k =>
    by_contra other
    have primitive : k.isPrimitive = true := by simpa [TokenKind.isPrimitive] using other
    have noAttribute : attributeTokens s = [] := by
      cases s with
      | nil => rfl
      | cons n s => exact attributeTokens_of_kw kind (by rintro rfl; cases primitive)
    -- A second arithmetic keyword would show up in what the specifiers are.
    obtain ⟨_, more, _, step, rest⟩ := reads_loop.1 h.loop_int
    obtain ⟨⟨⟩, rfl⟩ := step.unique (specifierStep_primitive kind noAttribute primitive rfl rfl)
    have longer := (@specifiers_typed c _ _ .nothing .nothing none none _ _ rfl rest.2).2.1
    simp [intSpecifiers] at longer
  | _ => rfl

theorem specifiers_name (h : NameForInt c isTypedef front i t s behind)
    (noKeyword : isForeign (next c s) = false) :
    (specifiers P record).Reads c (front ++ t :: s) (nameSpecifiers isTypedef t.text) behind := by
  have plain : t.text ∉ annotationWords ∧ t.text ∉ ignoredSpecifiers := by
    have := h.ordinary
    simp only [List.mem_append, not_or] at this
    exact this.1
  have noAttribute : attributeTokens (t :: s) = [] := attributeTokens_of_name h.name plain.1
  have kept := noKeyword
  simp only [isForeign, Bool.or_eq_false_iff] at kept
  have type : (typeName P record { isTypedef }).Reads c (t :: s)
      (nameSpecifiers isTypedef t.text, true) s :=
    typeName_reads h.name h.shown h.ends kept.1 ⟨h.not_primitive, kept.2⟩
  have step : (specifierStep P record { isTypedef }).Reads c (t :: s)
      (nameSpecifiers isTypedef t.text, true) s := by
    simp only [specifierStep, reads_bind, reads_skipAttributes noAttribute, reads_peek]
    refine ⟨(), t :: s, rfl, t, t :: s, ⟨rfl, rfl⟩, ?_⟩
    simpa [h.name, plain.2, Specifiers.hasType] using type
  rw [specifiers_front h.marks]
  refine reads_loop_more _ s step (Nat.lt_succ_self _) ?_
  exact ((specifiers_typed rfl h.loop_int).2.2 rfl).2 _

/-- With what cannot begin a declarator behind it, `int` is no declaration either. -/
theorem not_foreign (h : NameForInt c isTypedef front i t s behind) {ds : List (Declarator × Tail)}
    (list : (declaratorList P).Reads c behind ds u) : isForeign (next c s) = false := by
  by_contra other
  have foreign : isForeign (next c s) = true := by simpa using other
  have stays : behind = s := (h.loop_int.unique (specifiers_stop_foreign rfl foreign)).2
  rw [stays] at list
  exact not_declaratorList_foreign foreign list

/-- A declaration of type `int` is also one with the name as its type, with the same declarators. -/
theorem declaration_name (h : NameForInt c isTypedef front i t s behind) {member : Option MemberContext}
    {origin : Origin} {d : Declared} (origin' : Origin)
    (read : (declaration P member none origin).Reads c (front ++ i :: s) d u) :
    ∃ ds d', (declaratorList P).Reads c behind ds u ∧
      Alike (Rebased (.primitive .int) (.path (.simple t.text)) ds) origin origin' d d' ∧
      (declaration P member none origin').Reads c (front ++ t :: s) d' u := by
  obtain ⟨ds, list, silent, rfl⟩ := (reads_declaration h.specifiers_int rfl rfl rfl).1 read
  have same : Alike (Rebased (.primitive .int) (.path (.simple t.text)) ds) origin origin'
      (declare (intSpecifiers isTypedef) member none origin c.scope ds)
      (declare (nameSpecifiers isTypedef t.text) member none origin' c.scope ds) :=
    declareAll_alike _ fun d mem => ⟨d, mem, rfl, rfl⟩
  -- As nothing is reported of the one, nothing is reported of the other.
  have silent' : (declare (nameSpecifiers isTypedef t.text) member none origin' c.scope ds).reports = [] :=
    same.reports.symm.trans silent
  have specs := @specifiers_name c s behind front i t P isTypedef (member.bind MemberContext.record) h
    (h.not_foreign list)
  exact ⟨ds, _, list, same, (reads_declaration specs rfl rfl rfl).2 ⟨ds, list, silent', rfl⟩⟩

end NameForInt

/-! ### Items and members -/

/-- Whether a token begins a declaration and nothing else. -/
def BeginsDeclaration (t : Token) : Prop :=
  t.kind = .kw .typedef ∨ t.kind = .kw .int ∨ t.kind = .identifier ∧ t.text ≠ "static_assert"

variable {d : Declared} {member : Option MemberContext}

theorem begins_front (marks : front.map Token.kind = if isTypedef then [.kw .typedef] else [])
    (begins : BeginsDeclaration t) : BeginsDeclaration (next c (front ++ t :: s)) := by
  match front, isTypedef with
  | [], _ => exact begins
  | f :: _, true =>
    have kind : f.kind = .kw .typedef := by simpa using (List.cons.inj marks).1
    exact .inl kind

theorem reads_anyDeclaration (begins : BeginsDeclaration (next c s)) :
    (anyDeclaration P member).Reads c s d u ↔
      (declaration P member none (next c s).loc).Reads c s d u := by
  rcases begins with kind | kind | ⟨kind, other⟩ <;>
    simp [anyDeclaration, Token.isKw, Token.isWordIn, and_assoc, *]

theorem reads_item {block : Parser (List Item)} (begins : BeginsDeclaration (next c s)) :
    (item P block).Reads c s d u ↔ (declaration P none none (next c s).loc).Reads c s d u := by
  rw [← reads_anyDeclaration begins]
  rcases begins with kind | kind | ⟨kind, other⟩ <;>
    simp [item, Token.isKw, kind, and_assoc]

theorem reads_topItem (begins : BeginsDeclaration (next c s)) :
    topItem.Reads c s d u ↔
      (declaration (.upTo s.length) none none (next c s).loc).Reads c s d u := by
  rw [← @reads_item c s u _ d (block (.upTo s.length) s.length) begins]
  simp [topItem, left_ofTokens]

theorem BeginsDeclaration.not_end (begins : BeginsDeclaration t) :
    t.isEof = false ∧ ∀ q ∈ [Punct.semicolon, .rbrace], t.is q = false := by
  rcases begins with kind | kind | ⟨kind, -⟩ <;> simp [Token.isEof, Token.is, kind]

theorem reads_items {close : List Punct} {p : Parser Declared} {xs : List Item}
    (begins : BeginsDeclaration (next c s)) (closes : close ⊆ [.rbrace]) :
    (items close p).Reads c s xs u ↔ ∃ mid d, p.Reads c s d mid ∧ d.failure = none ∧
      mid.length < s.length ∧ ∃ more, (items close p).Reads c mid more u ∧ d.items ++ more = xs := by
  obtain ⟨noEof, noEnd⟩ := begins.not_end
  have open_ : close.any (next c s).is = false := by
    simp only [List.any_eq_false, Bool.not_eq_true]
    exact fun q mem => noEnd q (List.mem_cons_of_mem _ (closes mem))
  rw [items, reads_collect]
  simp [noEof, open_, noEnd, reads_recovering, and_assoc]

theorem reads_members {name : Option String} {m : MemberState} {ds : List Declared}
    (begins : BeginsDeclaration (next c s)) :
    (collectFrom (memberStep P name) m).Reads c s ds u ↔ ∃ mid d,
      (P.member ⟨name, m.access, m.fieldCount⟩).Reads c s d mid ∧ d.failure = none ∧
        mid.length < s.length ∧ ∃ more,
          (collectFrom (memberStep P name) { m with fieldCount := m.fieldCount + d.fields.length }).Reads
            c mid more u ∧ d :: more = ds := by
  obtain ⟨noEof, noEnd⟩ := begins.not_end
  have noAccess : accessOf? (next c s) = none := by
    rcases begins with kind | kind | ⟨kind, -⟩ <;> simp [accessOf?, Token.isKw, kind]
  rw [reads_collectFrom]
  simp [memberStep, noEof, noEnd, noAccess, reads_recovering, and_assoc]

namespace NameForInt

theorem begins_int (h : NameForInt c isTypedef front i t s behind) :
    BeginsDeclaration (next c (front ++ i :: s)) :=
  begins_front h.marks (.inr (.inl h.int))

theorem begins_name (h : NameForInt c isTypedef front i t s behind) :
    BeginsDeclaration (next c (front ++ t :: s)) := by
  have other : t.text ≠ "static_assert" := by
    intro is
    exact h.ordinary (by simp [is])
  exact begins_front h.marks (.inr (.inr ⟨h.name, other⟩))

theorem items_name (h : NameForInt c isTypedef front i t s behind) {close : List Punct}
    {p : Parser Declared} {xs : List Item} (closes : close ⊆ [.rbrace])
    (reads : ∀ {w d u}, BeginsDeclaration (next c (front ++ w :: s)) →
      (p.Reads c (front ++ w :: s) d u ↔
        (declaration P none none (next c (front ++ w :: s)).loc).Reads c (front ++ w :: s) d u))
    (run : (items close p).Reads c (front ++ i :: s) xs u) :
    ∃ ds mid d d' more, (declaratorList P).Reads c behind ds mid ∧
      Alike (Rebased (.primitive .int) (.path (.simple t.text)) ds) (next c (front ++ i :: s)).loc
        (next c (front ++ t :: s)).loc d d' ∧
      (items close p).Reads c mid more u ∧ xs = d.items ++ more ∧
      (items close p).Reads c (front ++ t :: s) (d'.items ++ more) u := by
  obtain ⟨mid, d, read, good, shorter, more, rest, rfl⟩ := (reads_items h.begins_int closes).1 run
  obtain ⟨ds, d', list, same, read'⟩ :=
    h.declaration_name (next c (front ++ t :: s)).loc ((reads h.begins_int).1 read)
  refine ⟨ds, mid, d, d', more, list, same, rest, rfl, (reads_items h.begins_name closes).2
    ⟨mid, d', (reads h.begins_name).2 read', ?_, ?_, more, rest, rfl⟩⟩
  · exact same.failure.symm.trans good
  · simpa using shorter

theorem members_name (h : NameForInt c isTypedef front i t s behind) {n : Nat}
    {record : Option String} {m : MemberState} {members : List Declared}
    (run : (collectFrom (memberStep (.upTo (n + 1)) record) m).Reads c (front ++ i :: s) members u) :
    ∃ ds mid d d' more, (declaratorList (.upTo n)).Reads c behind ds mid ∧
      Alike (Rebased (.primitive .int) (.path (.simple t.text)) ds) (next c (front ++ i :: s)).loc
        (next c (front ++ t :: s)).loc d d' ∧
      members = d :: more ∧
      (collectFrom (memberStep (.upTo (n + 1)) record) m).Reads c (front ++ t :: s) (d' :: more) u := by
  have member : (Nested.upTo (n + 1)).member = fun m => anyDeclaration (.upTo n) (some m) := rfl
  obtain ⟨mid, d, read, good, shorter, more, rest, rfl⟩ := (reads_members h.begins_int).1 run
  rw [member, reads_anyDeclaration h.begins_int] at read
  obtain ⟨ds, d', list, same, read'⟩ := h.declaration_name (next c (front ++ t :: s)).loc read
  refine ⟨ds, mid, d, d', more, list, same, rfl,
    (reads_members h.begins_name).2 ⟨mid, d', ?_, ?_, ?_, more, ?_, rfl⟩⟩
  · rw [member, reads_anyDeclaration h.begins_name]
    exact read'
  · exact same.failure.symm.trans good
  · simpa using shorter
  · -- The members behind are numbered on from as many fields.
    rw [same.fields.length_eq] at rest
    exact rest

end NameForInt

/-- Where a declaration of type `int` is read without a report, in a file, in a namespace or in a record,
the same declarators are read with a name as their type. They declare the same, with that type in place
of `int`, and all that follows is read as before. -/
theorem name_for_int (h : NameForInt c isTypedef front i t s behind) :
    (∀ {xs u}, topItems.Reads c (front ++ i :: s) xs u → ∃ ds mid d d' more,
      (declaratorList (.upTo (front ++ i :: s).length)).Reads c behind ds mid ∧
      Alike (Rebased (.primitive .int) (.path (.simple t.text)) ds) (next c (front ++ i :: s)).loc
        (next c (front ++ t :: s)).loc d d' ∧
      topItems.Reads c mid more u ∧ xs = d.items ++ more ∧
      topItems.Reads c (front ++ t :: s) (d'.items ++ more) u) ∧
    (∀ {n block xs u}, (items [.rbrace] (item (.upTo n) block)).Reads c (front ++ i :: s) xs u →
      ∃ ds mid d d' more, (declaratorList (.upTo n)).Reads c behind ds mid ∧
        Alike (Rebased (.primitive .int) (.path (.simple t.text)) ds) (next c (front ++ i :: s)).loc
          (next c (front ++ t :: s)).loc d d' ∧
        (items [.rbrace] (item (.upTo n) block)).Reads c mid more u ∧ xs = d.items ++ more ∧
        (items [.rbrace] (item (.upTo n) block)).Reads c (front ++ t :: s) (d'.items ++ more) u) ∧
    ∀ {n record m members u},
      (collectFrom (memberStep (.upTo (n + 1)) record) m).Reads c (front ++ i :: s) members u →
      ∃ ds mid d d' more, (declaratorList (.upTo n)).Reads c behind ds mid ∧
        Alike (Rebased (.primitive .int) (.path (.simple t.text)) ds) (next c (front ++ i :: s)).loc
          (next c (front ++ t :: s)).loc d d' ∧
        members = d :: more ∧
        (collectFrom (memberStep (.upTo (n + 1)) record) m).Reads c (front ++ t :: s) (d' :: more)
          u := by
  refine ⟨fun run => h.items_name (List.nil_subset _) ?_ run,
    fun run => h.items_name (List.Subset.refl _) reads_item run, fun run => h.members_name run⟩
  intro w d u begins
  simpa using reads_topItem begins

/-- `typedef T *x;` -/
theorem name_for_int_pointer :
    let s : List Token :=
      [.synthetic (.punct .star) "*", .synthetic .identifier "x", .synthetic (.punct .semicolon) ";"]
    NameForInt ⟨.eofAt .synthetic, []⟩ true [.synthetic (.kw .typedef) "typedef"]
        (.synthetic (.kw .int) "int") (.synthetic .identifier "T") s s ∧
      topItems.Reads ⟨.eofAt .synthetic, []⟩
        (.synthetic (.kw .typedef) "typedef" :: .synthetic .identifier "T" :: s)
        [.decl (.typedef { name := "x", ty := .pointer (.path (.simple "T")) }) [] .synthetic] [] := by
  intro s
  have h : NameForInt ⟨.eofAt .synthetic, []⟩ true [.synthetic (.kw .typedef) "typedef"]
      (.synthetic (.kw .int) "int") (.synthetic .identifier "T") s s :=
    ⟨rfl, rfl, by unfold Reads; cbv, rfl, by decide, by decide, by decide⟩
  have int : topItems.Reads ⟨.eofAt .synthetic, []⟩
      (.synthetic (.kw .typedef) "typedef" :: .synthetic (.kw .int) "int" :: s)
      [.decl (.typedef { name := "x", ty := .pointer (.primitive .int) }) [] .synthetic] [] := by
    unfold Reads
    cbv
  have list : (declaratorList (.upTo 5)).Reads ⟨.eofAt .synthetic, []⟩ s
      [(⟨some (.plain "x"), false, false, .synthetic .identifier "x", [.pointer {}]⟩, {})] [] := by
    unfold Reads
    cbv
  have nothing : topItems.Reads ⟨.eofAt .synthetic, []⟩ [] [] [] := by
    unfold Reads
    cbv
  obtain ⟨ds, mid, d, d', more, found, same, rest, xs, read⟩ := (name_for_int h).1 int
  obtain ⟨rfl, rfl⟩ := found.unique list
  obtain ⟨rfl, -⟩ := rest.unique nothing
  rw [List.append_nil] at xs read
  have items := same.items
  rw [← xs] at items
  generalize d'.items = items' at items read
  obtain - | ⟨⟨ptr, mem, -, rfl⟩, ⟨⟩⟩ := items
  obtain rfl := List.mem_singleton.1 mem
  exact ⟨h, read⟩

/-- A declaration with a name as its type is not read if the name is taken for a macro, whatever its
declarators are. -/
theorem not_declaration_taken {origin : Origin}
    (marks : front.map Token.kind = if isTypedef then [.kw .typedef] else [])
    (name : t.kind = .identifier) (ordinary : t.text ∉ annotationWords ++ ignoredSpecifiers)
    (other : member.bind MemberContext.record ≠ some t.text) (taken : takenForMacro c s = true) :
    ¬(declaration P member none origin).Reads c (front ++ t :: s) d u := by
  simp only [List.mem_append, not_or] at ordinary
  have noAttribute : attributeTokens (t :: s) = [] := attributeTokens_of_name name ordinary.1
  intro read
  rw [declaration, reads_bind] at read
  obtain ⟨specs, mid, run, -⟩ := read
  rw [specifiers_front marks, reads_loop] at run
  obtain ⟨specs', more, mid', step, -⟩ := run
  refine @not_typeName_taken c s mid' t P _ { isTypedef } (specs', more) name other taken ?_
  simpa [specifierStep, reads_skipAttributes noAttribute, name, ordinary.2, Specifiers.hasType]
    using step

end HeaderDecl.Grammar

namespace HeaderDecl

open Grammar

/-- A name in front of a parenthesis is taken for a macro even where only a declarator can stand. -/
theorem parseUnit_name_before_grouping :
    (∃ origin, parseUnit (lex "a.h" "typedef int (*f)(int);") =
      ([.decl (.typedef { name := "f", ty := .pointer (.function
        ⟨.primitive .int, [⟨none, .primitive .int, false⟩], false⟩) }) [] origin], [])) ∧
    ∃ r, parseUnit (lex "a.h" "typedef T (*f)(int);") = ([], [r]) ∧
      r.finding = .unsupportedMacro "T" :=
  ⟨⟨⟨"a.h", 1, 1⟩, by cbv⟩, ⟨.unsupportedMacro "T", ⟨8, 1⟩, ⟨"a.h", 1, 9⟩⟩, by cbv, rfl⟩

end HeaderDecl
