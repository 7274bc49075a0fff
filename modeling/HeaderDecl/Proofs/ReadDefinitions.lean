import HeaderDecl.Proofs.WrittenDefinitions

/-!
What is read where definitions are written. A run without a report reads each record from its head on, each
member of it from its beginning on, and each item of a block, and what these give is in what the whole
gives.
-/

namespace HeaderDecl.Grammar

open HeaderDecl.Grammar.Parser

section

variable {P : Nested} {c : Context} {s t u v x : Cursor} {d : Declared} {e : List Token}

/-- What the specifiers of a declaration define they define in the end. -/
theorem defined_specifierStep {record : Option String} {before after : Specifiers} {more : Bool}
    {r : Defined} (h : (specifierStep P record before).Yields c s (after, more) t)
    (defined : before.defined = some r) : after.defined = some r := by
  have typed : before.hasType = true := by simp [Specifiers.hasType, defined]
  -- A step passes a token, or stops in front of it, and what is defined stays.
  have stops {u : Cursor} (h : (pure (before, false) : Parser _).Yields c u (after, more) t) :
      after.defined = some r := by
    obtain ⟨same, -⟩ := yields_pure.mp h
    rw [← (Prod.mk.inj same).1, defined]
  have passes {sp : Specifiers} {u : Cursor}
      (h : (advance >>= fun _ => pure (sp, true) : Parser _).Yields c u (after, more) t)
      (same : sp.defined = before.defined) : after.defined = some r := by
    obtain ⟨_, _, -, h⟩ := yields_bind.mp h
    obtain ⟨last, -⟩ := yields_pure.mp h
    rw [← (Prod.mk.inj last).1, same, defined]
  simp only [specifierStep, yields_bind, yields_skipAttributes, yields_peek] at h
  obtain ⟨_, _, rfl, _, _, ⟨rfl, rfl⟩, h⟩ := h
  split at h
  case h_2 =>
    obtain ⟨_, _, -, h⟩ := yields_bind.mp h
    split at h
    · obtain ⟨_, _, -, h⟩ := yields_bind.mp h
      exact passes h rfl
    · exact passes h rfl
  case h_14 | h_15 | h_16 | h_17 | h_18 | h_21 => exact stops (by simpa only [typed, if_true] using h)
  case h_19 =>
    split at h
    · exact passes h rfl
    · exact stops h
  case h_20 =>
    split at h
    · exact passes h rfl
    · exact stops (by simpa only [typed, if_true] using h)
  case h_22 => exact stops h
  all_goals exact passes h rfl

theorem Site.Defines.specifiers {w : Site} {r : Defined} {specs : Specifiers}
    (h : w.Defines v r)
    (read : (Grammar.specifiers w.nested w.record).Reads w.context w.start.ahead specs e) :
    specs.defined = some r := by
  obtain ⟨before, after, t, visits, step, -, defined⟩ := h
  have read : (loop (specifierStep w.nested w.record) {}).Reads w.context w.start.ahead specs e := read
  obtain ⟨_, more, u, first, rest⟩ := reads_loop.mp (read.loop_rest visits)
  obtain ⟨same, rfl⟩ := first.same step
  obtain ⟨rfl, rfl⟩ := Prod.mk.inj same
  exact Yields.loop_invariant (I := fun sp => sp.defined = some r) rest.2.yields
    (fun _ _ _ _ _ kept step => defined_specifierStep step kept) defined

/-- A step at the keyword of a record that is defined there reads the record. -/
theorem reads_record {record : Option String} {before after : Specifiers}
    (h : (specifierStep P record before).Reads c v.ahead (after, true) e)
    (keyword : isRecordKeyword (next c v.afterAttributes.ahead)) :
    (Grammar.record P before).Reads c v.afterAttributes.ahead after e := by
  simp only [specifierStep, reads_bind, reads_skipAttributes_iff, reads_peek, ofTokens_ahead] at h
  obtain ⟨_, _, rfl, _, _, ⟨rfl, rfl⟩, h⟩ := h
  have kinds : (next c v.afterAttributes.ahead).kind = .kw .struct ∨
      (next c v.afterAttributes.ahead).kind = .kw .klass ∨
        (next c v.afterAttributes.ahead).kind = .kw .union := by
    simpa [isRecordKeyword, Token.isKw, or_assoc] using keyword
  rcases kinds with kind | kind | kind
  all_goals
    simp only [kind] at h
    split at h
    · simp at h
    · simpa using h

theorem not_yields_unknownMacro {α : Type} {a : α} : ¬(unknownMacro : Parser α).Yields c s a t := by
  unfold unknownMacro
  simp only [yields_bind]
  rintro ⟨_, _, -, _, _, -, _, _, -, h⟩
  split at h
  all_goals simp at h

section Head

variable {β : Type} {kind : RecordKind} {path : Option PathExpr} {bases : List (BaseSpec PathExpr)}
  {rest : RecordKind → Option PathExpr → List (BaseSpec PathExpr) → Parser β} {a : β}

/-- The bases of a record, and what is behind them. -/
theorem reads_behind_bases {k : RecordKind} {p : Option PathExpr}
    (head : (do
      if ← take .colon then
        let bases ← Grammar.bases P k
        pure (k, p, bases)
      else
        let bases ← pure []
        pure (k, p, bases)).Yields c s (kind, path, bases) x)
    (h : (do
      if ← take .colon then
        let bases ← Grammar.bases P k
        rest k p bases
      else
        let bases ← pure []
        rest k p bases).Reads c s.ahead a e) : (rest kind path bases).Reads c x.ahead a e := by
  obtain ⟨colon, _, taken, head⟩ := yields_bind.mp head
  have h := h.rest taken
  cases colon
  all_goals
    obtain ⟨_, _, read, done⟩ := yields_bind.mp head
    have h := h.rest read
    obtain ⟨same, rfl⟩ := yields_pure.mp done
    simp only [Prod.mk.injEq] at same
    obtain ⟨rfl, rfl, rfl⟩ := same
    exact h

/-- What is read behind the head of a record. -/
theorem HeadAt.behind (head : HeadAt P c v kind path bases x)
    (h : (recordHead P rest).Reads c v.ahead a e) : (rest kind path bases).Reads c x.ahead a e := by
  unfold HeadAt recordHead at head
  simp only [yields_bind] at head
  obtain ⟨_, _, keyword, _, _, attributes, start, _, place, _, _, name, b, _, known, head⟩ := head
  unfold recordHead at h
  have h := ((((h.rest keyword).rest attributes).rest place).rest name).rest known
  cases b with
  | true =>
    obtain ⟨_, _, -, head⟩ := yields_bind.mp head
    obtain ⟨_, _, fails, -⟩ := yields_bind.mp head
    exact absurd fails not_yields_unknownMacro
  | false =>
    obtain ⟨final, _, word, head⟩ := yields_bind.mp head
    have h := h.rest word
    cases final with
    | true =>
      obtain ⟨_, _, passed, head⟩ := yields_bind.mp head
      exact reads_behind_bases head (h.rest passed)
    | false => exact reads_behind_bases head h

end Head

/-- A step at the beginning of a member reads the member. -/
theorem reads_memberStep {name : Option String} {m m' : MemberState} {ds : List Declared} {more : Bool}
    (begins : BeginsItem [.rbrace] c s) (noLabel : IsNoLabel c s)
    (h : (memberStep P name m).Reads c s.ahead (ds, m', more) e) :
    ∃ d, ds = [d] ∧ (recovering (P.member ⟨name, m.access, m.fieldCount⟩)).Reads c s.ahead d e := by
  unfold memberStep at h
  have h := h.rest (yields_atEndOr.mpr ⟨begins.1, rfl⟩)
  have h := Reads.rest (by simpa only [Bool.false_eq_true, if_false] using h) (yields_peek.mpr ⟨rfl, rfl⟩)
  have member (h : (do
      if ← take .semicolon then return ([], m, true)
      let d ← recovering (P.member ⟨name, m.access, m.fieldCount⟩)
      return ([d], { m with fieldCount := m.fieldCount + d.fields.length }, true)).Reads c s.ahead
        (ds, m', more) e) :
      ∃ d, ds = [d] ∧
        (recovering (P.member ⟨name, m.access, m.fieldCount⟩)).Reads c s.ahead d e := by
    have h := h.rest (yields_take.mpr ⟨begins.2, if_neg (by simp [begins.2])⟩)
    obtain ⟨d, _, read, done⟩ := reads_bind.mp h
    obtain ⟨same, rfl⟩ := reads_pure.mp done
    exact ⟨d, (Prod.mk.inj same).1.symm, read⟩
  cases label : accessOf? (next c s.ahead) with
  | none =>
    simp only [label] at h
    exact member h
  | some access =>
    have noColon := noLabel (by rw [label]; rfl)
    simp only [label] at h
    have h := h.rest (yields_nth.mpr ⟨(next_drop 1).symm, rfl⟩)
    rw [if_neg (by simpa using noColon)] at h
    exact member h

/-- What begins in the body of a record is read as a member of it, and its items are nested in it. -/
theorem MemberAt.reads {before after : Specifiers} {name : Option String} {m : MemberState} {r : Defined}
    (place : MemberAt P c v name m u) (h : (Grammar.record P before).Reads c v.ahead after e)
    (defined : after.defined = some r) :
    ∃ d e', (P.member ⟨name, m.access, m.fieldCount⟩).Reads (c.enter name.toList) u.ahead d e' ∧
      d.failure = none ∧ ∀ i ∈ d.items, i ∈ r.nested := by
  obtain ⟨-, kind, path, bases, x, head, rfl, brace, visits, begins, noLabel⟩ := place
  rw [record_eq] at h
  have h := (head.behind h).rest (yields_isNext.mpr ⟨brace, rfl⟩)
  obtain ⟨members, _, body, done⟩ := reads_bind.mp h
  obtain ⟨rfl, rfl⟩ := reads_pure.mp done
  cases defined
  have body := body.rest (yields_consume.mpr ⟨brace, rfl, rfl⟩)
  obtain ⟨_, _, inner, close⟩ := reads_bind.mp body
  obtain ⟨_, _, -, done⟩ := reads_bind.mp close
  obtain ⟨rfl, -⟩ := reads_pure.mp done
  obtain ⟨ds, behind, rest⟩ := Reads.collectFrom_rest (c := c.enter _) inner visits
  obtain ⟨ys, m', more, w, step, front⟩ := Reads.collectFrom_first rest
  obtain ⟨d, rfl, read⟩ := reads_memberStep begins noLabel step
  obtain ⟨read, fine⟩ := reads_recovering.mp read
  refine ⟨d, w, read, fine, fun i mem => ?_⟩
  exact List.mem_flatMap.mpr ⟨d, behind.subset (front.subset List.mem_cons_self), mem⟩

/-- The record that is defined at some place of the specifiers is read there. -/
theorem Site.Defines.record {w : Site} {r : Defined} {specs : Specifiers} (h : w.Defines v r)
    (read : (Grammar.specifiers w.nested w.record).Reads w.context w.start.ahead specs e)
    (keyword : isRecordKeyword (next w.context v.afterAttributes.ahead)) :
    ∃ before after e', (Grammar.record w.nested before).Reads w.context v.afterAttributes.ahead after e' ∧
      after.defined = some r := by
  obtain ⟨before, after, t, visits, step, -, defined⟩ := h
  have read : (loop (specifierStep w.nested w.record) {}).Reads w.context w.start.ahead specs e := read
  obtain ⟨_, more, u, first, -⟩ := reads_loop.mp (read.loop_rest visits)
  obtain ⟨same, rfl⟩ := first.same step
  obtain ⟨rfl, rfl⟩ := Prod.mk.inj same
  exact ⟨before, _, _, reads_record first keyword, defined⟩

/-- What begins with some specifiers, behind template parameters or not, is read from them on. -/
theorem Begins.reads {member : Option MemberContext} {template : Option (List (TemplateParam TypeExpr))}
    (begins : Begins P c s template t) (h : (anyDeclaration P member).Reads c s.ahead d e) :
    (declaration P member template (next c s.ahead).loc).Reads c t.ahead d e := by
  unfold anyDeclaration at h
  have h := h.rest (yields_peek.mpr ⟨rfl, rfl⟩)
  cases begins with
  | plain ahead => simpa [ahead] using h
  | template keyword list params ahead =>
    rw [if_pos keyword] at h
    unfold Grammar.template at h
    have h := ((h.rest (yields_here.mpr ⟨rfl, rfl⟩)).rest (yields_peek.mpr ⟨rfl, rfl⟩)).rest
      (yields_consumeKw.mpr ⟨keyword, rfl, rfl⟩)
    have h := (h.rest (yields_isNext.mpr ⟨list, rfl⟩)).rest params
    simpa [ahead] using h.rest (yields_peek.mpr ⟨rfl, rfl⟩)

/-! ### Items -/

/-- An item of a block is read where it begins, and what it declares is among the items of the block. -/
theorem ItemAt.reads {close : List Punct} {item : Parser Declared} {is : List Item}
    (place : ItemAt close item c s u) (h : (items close item).Reads c s.ahead is e) :
    ∃ d e', item.Reads c u.ahead d e' ∧ ∀ i ∈ d.items, i ∈ is := by
  rw [items_eq] at h
  obtain ⟨js, behind, rest⟩ := h.collectFrom_rest place.1
  obtain ⟨ys, _, more, w, gathered, front⟩ := Reads.collectFrom_first rest
  obtain ⟨⟨_, _⟩, _, step, done⟩ := reads_bind.mp gathered
  obtain ⟨same, rfl⟩ := reads_pure.mp done
  obtain ⟨rfl, -⟩ := Prod.mk.inj same
  unfold itemStep at step
  have step := step.rest (yields_atEndOr.mpr ⟨place.2.1, rfl⟩)
  have step := Reads.rest (by simpa only [Bool.false_eq_true, if_false] using step)
    (yields_take.mpr ⟨place.2.2, if_neg (by simp [place.2.2])⟩)
  obtain ⟨d, _, read, done⟩ := reads_bind.mp step
  obtain ⟨same, rfl⟩ := reads_pure.mp done
  obtain ⟨rfl, -⟩ := Prod.mk.inj same
  exact ⟨d, _, (reads_recovering.mp read).1, fun i mem => behind.subset (front.subset mem)⟩

/-- An item that is no namespace is read as a linkage block or as a declaration. -/
theorem reads_elsewhere {block : Parser (List Item)} (elsewhere : opensNamespace c s = false)
    (h : (item P block).Reads c s.ahead d e) :
    (if opensLinkage c s then linkageBlock block else anyDeclaration P none).Reads c s.ahead d e := by
  obtain ⟨noNamespace, notInline⟩ := Bool.or_eq_false_iff.mp elsewhere
  unfold item at h
  have h := (h.rest (yields_peek.mpr ⟨rfl, rfl⟩)).rest (yields_nth.mpr ⟨(next_drop 1).symm, rfl⟩)
  rw [if_neg (Bool.eq_false_iff.mp noNamespace), if_neg (Bool.eq_false_iff.mp notInline)] at h
  exact h.rest (yields_nth.mpr ⟨(next_drop 2).symm, rfl⟩)

/-- The items of a namespace are read behind its head. -/
theorem NamespaceHead.reads {block : Parser (List Item)} {isInline : Bool} {names : List String}
    (head : NamespaceHead c s names x) (h : (namespaceBlock block isInline).Reads c s.ahead d e) :
    ∃ is e' origin, block.Reads (c.enter (if isInline then [] else names)) x.ahead is e' ∧
      d.items = [inNamespaces origin is (if isInline then [] else names)] := by
  obtain ⟨keyword, noAlias, a, read, brace, rfl⟩ := head
  unfold namespaceBlock at h
  have h := ((h.rest (yields_peek.mpr ⟨rfl, rfl⟩)).rest
    (yields_consumeKw.mpr ⟨keyword, rfl, rfl⟩)).rest noAlias
  have h := ((Reads.rest (by simpa only [Bool.false_eq_true, if_false] using h) read).rest
    (yields_skipAttributes (x := ()).mpr rfl)).rest (yields_consume.mpr ⟨brace, rfl, rfl⟩)
  obtain ⟨is, e', inner, h⟩ := reads_bind.mp h
  obtain ⟨_, _, -, done⟩ := reads_bind.mp h
  obtain ⟨rfl, -⟩ := reads_pure.mp done
  exact ⟨is, e', _, inner, rfl⟩

/-- The items of a block are read where they begin. They are what the block declares, or stand within its
namespaces. -/
theorem Opens.reads {block : Parser (List Item)} {c' : Context} (opens : Opens c u c' x)
    (h : (item P block).Reads c u.ahead d e) :
    ∃ is e', block.Reads c' x.ahead is e' ∧ (c' = c ∧ d.items = is ∨
      ∃ origin names, c' = c.enter names ∧ d.items = [inNamespaces origin is names]) := by
  cases opens with
  | linkage opens =>
    have h := reads_elsewhere opens.1 h
    rw [if_pos opens.2] at h
    unfold linkageBlock at h
    obtain ⟨keyword, string, brace⟩ : (next c u.ahead).isKw .externKw ∧
        (next c (u.drop 1).ahead).kind = .string ∧ (next c (u.drop 2).ahead).is .lbrace := by
      simpa [opensLinkage, and_assoc] using opens.2
    have second : (u.drop 1).drop 1 = u.drop 2 := Cursor.ext (by simp)
    have third : (u.drop 2).drop 1 = u.drop 3 := Cursor.ext (by simp)
    have h := ((h.rest (yields_consumeKw.mpr ⟨keyword, rfl, rfl⟩)).rest
      (yields_consumeKind.mpr ⟨string, rfl, second⟩)).rest (yields_consume.mpr ⟨brace, rfl, third⟩)
    obtain ⟨is, e', inner, h⟩ := reads_bind.mp h
    obtain ⟨r, _, -, done⟩ := reads_bind.mp h
    refine ⟨is, e', inner, .inl ⟨rfl, ?_⟩⟩
    cases r with
    | ok _ => exact (reads_pure.mp done).1 ▸ rfl
    | error _ => exact (reads_pure.mp done).1 ▸ rfl
  | scope head =>
    have keyword := head.1
    unfold item at h
    have h := (h.rest (yields_peek.mpr ⟨rfl, rfl⟩)).rest (yields_nth.mpr ⟨(next_drop 1).symm, rfl⟩)
    rw [if_pos keyword] at h
    obtain ⟨is, e', origin, inner, items⟩ := head.reads h
    exact ⟨is, e', inner, .inr ⟨origin, _, rfl, items⟩⟩
  | inlineScope keyword head =>
    have notNamespace : ¬(next c u.ahead).isKw .namespaceKw := by
      intro other
      have kinds := (eq_of_beq keyword).symm.trans (eq_of_beq other)
      cases kinds
    unfold item at h
    have h := (h.rest (yields_peek.mpr ⟨rfl, rfl⟩)).rest (yields_nth.mpr ⟨(next_drop 1).symm, rfl⟩)
    rw [if_neg notNamespace, if_pos (by rw [keyword, head.1]; rfl)] at h
    obtain ⟨is, e', origin, inner, items⟩ := head.reads (h.rest (yields_advance.mpr ⟨rfl, rfl⟩))
    exact ⟨is, e', inner, .inr ⟨origin, _, rfl, items⟩⟩

end

end HeaderDecl.Grammar
