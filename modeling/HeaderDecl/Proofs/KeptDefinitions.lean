import HeaderDecl.Proofs.PlainUnits
import HeaderDecl.Proofs.ReadDefinitions
import HeaderDecl.Proofs.TotalParsing

/-!
Definitions that are written in the bodies of records are kept, in whatever way those records are handed
on. Those in a record that is only the type of some declarators, and has no name, are lost.
-/

namespace HeaderDecl.Grammar

open HeaderDecl.Grammar.Parser

/-! ### Items within items -/

/-- An item is among some items or stands within one of them. -/
inductive InItems (i : Item) : List Item → Prop
  | here {items : List Item} (h : i ∈ items) : InItems i items
  | nested {items nested : List Item} {d : ParsedDecl} {origin : Origin}
      (h : .decl d nested origin ∈ items) (inner : InItems i nested) : InItems i items
  | inNamespace {items inside : List Item} {name : Option String} {origin : Origin}
      (h : .namespaceItem name inside origin ∈ items) (inner : InItems i inside) : InItems i items

theorem InItems.mono {i : Item} {items items' : List Item} (h : InItems i items)
    (sub : ∀ j ∈ items, j ∈ items') : InItems i items' := by
  cases h with
  | here mem => exact .here (sub _ mem)
  | nested mem inner => exact .nested (sub _ mem) inner
  | inNamespace mem inner => exact .inNamespace (sub _ mem) inner

theorem inItems_inNamespaces {i : Item} {origin : Origin} {items : List Item} (names : List String)
    (h : InItems i items) : InItems i [inNamespaces origin items names] := by
  induction names with
  | nil => exact .inNamespace List.mem_cons_self h
  | cons name rest ih =>
    cases rest with
    | nil => exact .inNamespace List.mem_cons_self h
    | cons => exact .inNamespace List.mem_cons_self ih

/-! ### What a declaration makes of a definition -/

/-- A definition under its own name, or under one that a typedef gives it. -/
def Defined.Under (d r : Defined) : Prop := r = d ∨ ∃ name, r = d.namedByTypedef name

theorem Defined.Under.nested {d r : Defined} (h : d.Under r) : r.nested = d.nested := by
  rcases h with rfl | ⟨name, rfl⟩
  · rfl
  · unfold namedByTypedef
    split <;> rfl

theorem isSome_namedByTypedef (d : Defined) (name : String) : (d.namedByTypedef name).name.isSome := by
  rw [d.name_namedByTypedef]
  rfl

/-- A definition with a name, or one that is given one, is handed on under a name. -/
theorem exists_given {specs : Specifiers} {d : Defined} {ds : List (Declarator × Tail)}
    (defined : specs.defined = some d) (named : d.name.isSome ∨ (typedefAlias specs d ds).isSome) :
    ∃ r, given specs ds = some r ∧ r.name.isSome := by
  cases naming : typedefAlias specs d ds with
  | none =>
    rw [naming] at named
    exact ⟨d, by simp [given, defined, naming], by simpa using named⟩
  | some name => exact ⟨d.namedByTypedef name, by simp [given, defined, naming], isSome_namedByTypedef d name⟩

theorem under_given {specs : Specifiers} {d r : Defined} {ds : List (Declarator × Tail)}
    (defined : specs.defined = some d) (h : given specs ds = some r) : d.Under r := by
  rw [given, defined] at h
  cases named : typedefAlias specs d ds with
  | none => exact .inl (by simpa [named] using h.symm)
  | some name => exact .inr ⟨name, by simpa [named] using h.symm⟩

/-- A typedef gives no other name to what has one. -/
theorem name_given {specs : Specifiers} {d r : Defined} {ds : List (Declarator × Tail)} {n : String}
    (defined : specs.defined = some d) (h : given specs ds = some r) (named : d.name = some n) :
    r.name = some n := by
  rw [given, defined] at h
  cases naming : typedefAlias specs d ds with
  | none =>
    simp only [naming, Option.map_some, Option.elim_none, Option.some.injEq] at h
    exact h ▸ named
  | some name =>
    simp only [naming, Option.map_some, Option.elim_some, Option.some.injEq] at h
    have same : name = n := by
      unfold typedefAlias at naming
      split at naming
      · split at naming
        · have own := (Option.filter_eq_some_iff.mp naming).2
          rw [named, Option.all_some, decide_eq_true_eq] at own
          exact own.symm
        · cases naming
      · cases naming
    rw [← h, d.name_namedByTypedef, same]

section

variable {member : Option MemberContext} {template : Option (List (TemplateParam TypeExpr))}
  {origin : Origin} {specs : Specifiers} {d : Defined}

theorem mem_declareAlone (defined : specs.defined = some d) (named : d.name.isSome) :
    .decl (d.toDecl template) d.nested origin ∈ (declareAlone specs member template origin).items := by
  obtain ⟨name, eq⟩ := Option.isSome_iff_exists.mp named
  unfold declareAlone
  simp only [defined, Option.some_or]
  split
  · rename_i none
    rw [eq] at none
    cases none
  · exact List.mem_singleton_self _

/-- A definition that stands alone hands on what is nested in it, with a name or without. -/
theorem nested_declareAlone {i : Item} (defined : specs.defined = some d) (h : InItems i d.nested) :
    InItems i (declareAlone specs member template origin).items := by
  unfold declareAlone
  simp only [defined, Option.some_or]
  split
  · exact h
  · exact .nested (List.mem_singleton_self _) h

theorem mem_declare {scope : List String} {ds : List (Declarator × Tail)} {r : Defined}
    (h : given specs ds = some r) (named : r.name.isSome) :
    .decl (r.toDecl none) r.nested origin ∈ (declare specs member template origin scope ds).items := by
  rw [declare_eq, Declared.items_andThen rfl, h]
  simp [Defined.ownItems, named]

end

section

variable {P : Nested} {member : Option MemberContext} {c : Context} {s v : Cursor}
  {template : Option (List (TemplateParam TypeExpr))} {origin : Origin} {d : Defined} {D : Declared}
  {e : List Token}

/-- A definition stands alone, or in front of declarators. -/
theorem declaration_cases (h : (declaration P member template origin).Reads c s.ahead D e)
    (defines : Site.Defines ⟨P, member, c, s⟩ v d)
    (friend : ¬Site.IsFriend ⟨P, member, c, s⟩) :
    ∃ specs t, Site.HasSpecifiers ⟨P, member, c, s⟩ specs t ∧ specs.defined = some d ∧
      ((next c t.ahead).is .semicolon = true ∧ D = declareAlone specs member template origin ∨
        (next c t.ahead).is .semicolon = false ∧ ∃ ds u, (declarators P).Yields c t ds u ∧
          D = declare specs member template origin c.scope ds) := by
  obtain ⟨specs, t, read, h⟩ := reads_bind.mp h
  have specifiers : Site.HasSpecifiers ⟨P, member, c, s⟩ specs (.ofTokens t) := read.yields
  refine ⟨specs, .ofTokens t, specifiers, defines.specifiers read, ?_⟩
  rw [if_neg fun isFriend => friend ⟨specs, _, specifiers, isFriend⟩] at h
  obtain ⟨alone, t', taken, h⟩ := reads_bind.mp h
  obtain ⟨rfl, rfl⟩ := reads_take.mp taken
  split at h
  · rename_i semicolon
    exact .inl ⟨semicolon, (reads_pure.mp h).1.symm⟩
  · rename_i more
    simp only [reads_bind, reads_scope, reads_reportAll, reads_pure] at h
    obtain ⟨ds, u, many, _, _, ⟨rfl, rfl⟩, _, _, -, rfl, -⟩ := h
    have more : (next c (Cursor.ofTokens t).ahead).is .semicolon = false := Bool.eq_false_iff.mpr more
    exact .inr ⟨more, ds, _, Reads.yields (s := .ofTokens t) many, rfl⟩

/-- A definition has the name that the declarators behind it give it. -/
theorem Site.GivesName.isSome {w : Site} {specs : Specifiers} {t u : Cursor}
    {ds : List (Declarator × Tail)} (h : w.GivesName d) (specifiers : w.HasSpecifiers specs t)
    (many : (declarators w.nested).Yields w.context t ds u) : (typedefAlias specs d ds).isSome := by
  obtain ⟨_, _, _, _, specifiers', -, many', gives⟩ := h
  obtain ⟨rfl, rfl⟩ := specifiers.unique specifiers'
  obtain ⟨rfl, rfl⟩ := many.unique many'
  exact gives

/-- In front of declarators a definition that is not dropped has a name. -/
theorem named_of_not_drops {w : Site} {specs : Specifiers} {t u : Cursor} {ds : List (Declarator × Tail)}
    (kept : ¬w.Drops d) (specifiers : w.HasSpecifiers specs t)
    (more : (next w.context t.ahead).is .semicolon = false)
    (many : (declarators w.nested).Yields w.context t ds u) :
    d.name.isSome ∨ (typedefAlias specs d ds).isSome := by
  refine Classical.or_iff_not_imp_left.mpr fun unnamed => ?_
  refine Classical.byContradiction fun gives => kept (.inr ⟨⟨specs, t, specifiers, more⟩, ?_, ?_⟩)
  · simpa using unnamed
  · exact fun given => gives (given.isSome specifiers many)

/-- A definition with a name is an item, under its own name if it has one. -/
theorem own_kept (h : (declaration P member template origin).Reads c s.ahead D e)
    (defines : Site.Defines ⟨P, member, c, s⟩ v d)
    (friend : ¬Site.IsFriend ⟨P, member, c, s⟩)
    (named : d.name.isSome ∨ Site.GivesName ⟨P, member, c, s⟩ d) :
    ∃ r params, d.Under r ∧ r.name.isSome ∧ (∀ n, d.name = some n → r.name = some n) ∧
      .decl (r.toDecl params) r.nested origin ∈ D.items := by
  obtain ⟨specs, t, specifiers, defined, ⟨semicolon, rfl⟩ | ⟨more, ds, u, many, rfl⟩⟩ :=
    declaration_cases h defines friend
  · rcases named with named | ⟨_, _, _, _, specifiers', more, -⟩
    · exact ⟨d, template, .inl rfl, named, fun _ own => own, mem_declareAlone defined named⟩
    · obtain ⟨rfl, rfl⟩ := specifiers.unique specifiers'
      rw [semicolon] at more
      cases more
  · obtain ⟨r, eq, named⟩ := exists_given defined (named.imp_right (·.isSome specifiers many))
    exact ⟨r, none, under_given defined eq, named, fun _ => name_given defined eq, mem_declare eq named⟩

/-- What is nested in a definition that is not dropped is handed on. -/
theorem nested_kept (h : (declaration P member template origin).Reads c s.ahead D e)
    (defines : Site.Defines ⟨P, member, c, s⟩ v d)
    (kept : ¬Site.Drops ⟨P, member, c, s⟩ d) {i : Item} (inner : InItems i d.nested) :
    InItems i D.items := by
  have friend : ¬Site.IsFriend ⟨P, member, c, s⟩ := fun isFriend => kept (.inl isFriend)
  obtain ⟨specs, t, specifiers, defined, ⟨semicolon, rfl⟩ | ⟨more, ds, u, many, rfl⟩⟩ :=
    declaration_cases h defines friend
  · exact nested_declareAlone defined inner
  · obtain ⟨r, eq, named⟩ := exists_given defined (named_of_not_drops kept specifiers more many)
    exact .nested (mem_declare eq named) ((under_given defined eq).nested ▸ inner)

end

/-! ### Bodies of records -/

/-- A definition that is written in the body of a record, at any depth, is kept where none of the records
around it is dropped. -/
theorem kept_of_inBody {n : Nat} {member : Option MemberContext} {c : Context} {s : Cursor}
    {outer : List (Site × Defined)} {w : Site} {d : Defined}
    (inside : InBody n member c s outer w d) {D : Declared} {e : List Token}
    (h : (anyDeclaration (.upTo n) member).Reads c s.ahead D e) (friend : ¬w.IsFriend)
    (named : d.name.isSome ∨ w.GivesName d) (kept : ∀ w' r, (w', r) ∈ outer → ¬w'.Drops r) :
    ∃ r params origin, d.Under r ∧ r.name.isSome ∧
      InItems (.decl (r.toDecl params) r.nested origin) D.items := by
  induction inside generalizing D e with
  | here begins defines =>
    obtain ⟨r, params, under, isNamed, -, mem⟩ := own_kept (begins.reads h) defines friend named
    exact ⟨r, params, _, under, isNamed, .here mem⟩
  | inner begins defines place inside ih =>
    have h := begins.reads h
    obtain ⟨specs, t, read, -⟩ := reads_bind.mp h
    obtain ⟨before, after, e', record, defined⟩ := defines.record read place.1
    obtain ⟨D', e'', member, -, sub⟩ := place.reads record defined
    obtain ⟨r, params, origin, under, isNamed, mem⟩ :=
      ih member friend named fun w' r mem => kept w' r (List.mem_cons_of_mem _ mem)
    exact ⟨r, params, origin, under, isNamed,
      nested_kept h defines (kept _ _ List.mem_cons_self) (mem.mono sub)⟩

/-! ### Units -/

/-- What a declaration in a block declares is within what the block declares. -/
theorem kept_of_inItem {P : Nested} {n : Nat} {c c' : Context} {u v : Cursor}
    {D : Declared}
    {e : List Token} (inside : InItem P n c u c' v)
    (h : (item P (block P n)).Reads c u.ahead D e) :
    ∃ D' e', (anyDeclaration P none).Reads c' v.ahead D' e' ∧
      ∀ i, InItems i D'.items → InItems i D.items := by
  induction inside generalizing D e with
  | here single =>
    have h := reads_elsewhere single.1 h
    rw [if_neg (by simp [single.2])] at h
    exact ⟨D, e, h, fun i mem => mem⟩
  | block opens place inside ih =>
    obtain ⟨is, e', inner, made⟩ := opens.reads h
    obtain ⟨D', e'', one, sub⟩ := place.reads inner
    obtain ⟨D'', e''', declaration, within⟩ := ih one
    refine ⟨D'', e''', declaration, fun i mem => ?_⟩
    have among := (within i mem).mono sub
    rcases made with ⟨-, made⟩ | ⟨origin, names, -, made⟩
    · exact made ▸ among
    · exact made ▸ inItems_inNamespaces names among

theorem live_splitEnd (tokens : List Token) : ∀ t ∈ (splitEnd tokens).1, t.isEof = false := by
  fun_induction splitEnd tokens with
  | case1 =>
    intro t there
    cases there
  | case2 =>
    intro t there
    cases there
  | case3 t live => simpa using live
  | case4 =>
    intro t there
    cases there
  | case5 t ts _ live before eof same ih =>
    rw [same] at ih
    exact List.forall_mem_cons.mpr ⟨by simpa using live, ih⟩

/-- A unit that is read without a report. -/
theorem reads_of_parseUnit {tokens : List Token} (fine : (parseUnit tokens).2 = []) :
    ∃ t, topItems.Reads { eof := (splitEnd tokens).2 } (splitEnd tokens).1 (parseUnit tokens).1 t := by
  have ends : (Context.mk (splitEnd tokens).2 []).eof.isEof = true := isEof_splitEnd tokens
  obtain ⟨reports, is, run⟩ := exists_topItems ends (live_splitEnd tokens)
  have unit : parseUnit tokens = (is, reports) := by
    unfold parseUnit
    dsimp only
    rw [run]
  rw [unit] at fine ⊢
  cases fine
  exact ⟨[], run⟩

/-- No definition is lost but those in a record that is dropped: for tokens that are read without a report,
each definition with a name, its own or from a typedef, that is written outside of any record or in the
bodies of records, at any depth, is an item of the unit or is nested in one. -/
theorem definition_kept {tokens : List Token} {outer : List (Site × Defined)} {w : Site}
    {d : Defined} (fine : (parseUnit tokens).2 = []) (written : InUnit tokens outer w d)
    (named : d.name.isSome ∨ w.GivesName d) (friend : ¬w.IsFriend)
    (kept : ∀ w' r, (w', r) ∈ outer → ¬w'.Drops r) :
    ∃ r params origin, d.Under r ∧ r.name.isSome ∧
      InItems (.decl (r.toDecl params) r.nested origin) (parseUnit tokens).1 := by
  obtain ⟨ts, eof, u, c, v, split, place, inItem, inBody⟩ := written
  obtain ⟨t, read⟩ := reads_of_parseUnit fine
  rw [split] at read
  obtain ⟨D, e, one, sub⟩ := place.reads (s := .ofTokens ts) read
  have one : (item (.upTo u.left) (block (.upTo u.left) u.left)).Reads { eof } u.ahead D e :=
    one.rest (yields_here.mpr ⟨rfl, rfl⟩)
  obtain ⟨D', e', declaration, within⟩ := kept_of_inItem inItem one
  obtain ⟨r, params, origin, under, isNamed, mem⟩ :=
    kept_of_inBody inBody declaration friend named kept
  exact ⟨r, params, origin, under, isNamed, (within _ mem).mono sub⟩

/-! ### A record without a name -/

/-- The tokens of `struct { struct B { int x; } b; }`, of what follows, and a semicolon. -/
def namelessAround (rest : List Token) : List Token :=
  [.synthetic (.kw .struct) "struct", .synthetic (.punct .lbrace) "\x7b",
    .synthetic (.kw .struct) "struct", .synthetic .identifier "B", .synthetic (.punct .lbrace) "\x7b",
    .synthetic (.kw .int) "int", .synthetic .identifier "x", .synthetic (.punct .semicolon) ";",
    .synthetic (.punct .rbrace) "\x7d", .synthetic .identifier "b", .synthetic (.punct .semicolon) ";",
    .synthetic (.punct .rbrace) "\x7d"] ++ rest ++ [.synthetic (.punct .semicolon) ";"]

/-- The record `B`. -/
def innerRecord : Defined where
  body := .inl ⟨some "B", .struct, [⟨some "x", .primitive .int, none, .pub, 0, false⟩], [], [], true, false⟩
  path := some (.simple "B")

/-- The record without a name around it. -/
def outerRecord : Defined where
  body := .inl ⟨none, .struct, [⟨some "b", .elaborated .struct (.simple "B"), none, .pub, 0, false⟩], [],
    [], true, false⟩
  nested := [.decl (innerRecord.toDecl none) [] .synthetic]
  path := none

def namelessContext : Context := { eof := .eofAt .synthetic }

/-- The declaration of the outer record, and that of the inner one, which begins behind the first brace. -/
def outerDeclaration (rest : List Token) : Site :=
  ⟨.upTo (rest.length + 12 + 1), none, namelessContext, .ofTokens (namelessAround rest)⟩

def innerDeclaration (rest : List Token) : Site :=
  ⟨.upTo (rest.length + 12), some ⟨none, .pub, 0⟩, namelessContext.enter [],
    (Cursor.ofTokens (namelessAround rest)).drop 2⟩

/-- A name behind the record. -/
def nameBehind : List Token := [.synthetic .identifier "v"]

section

variable {rest : List Token} (either : rest = [] ∨ rest = nameBehind)

include either

/-- The first specifier of the outer declaration is the outer record. -/
theorem first_outer :
    (specifierStep (outerDeclaration rest).nested (outerDeclaration rest).record {}).Yields
      (outerDeclaration rest).context (outerDeclaration rest).start
      ({ defined := some outerRecord }, true) ((Cursor.ofTokens (namelessAround rest)).drop 12) := by
  unfold Yields
  rcases either with rfl | rfl <;> cbv

theorem first_inner :
    (specifierStep (innerDeclaration rest).nested (innerDeclaration rest).record {}).Yields
      (innerDeclaration rest).context (innerDeclaration rest).start
      ({ defined := some innerRecord }, true) ((Cursor.ofTokens (namelessAround rest)).drop 9) := by
  unfold Yields
  rcases either with rfl | rfl <;> cbv

theorem defines_outer : (outerDeclaration rest).Defines (outerDeclaration rest).start outerRecord :=
  ⟨{}, _, _, .refl, first_outer either, rfl, rfl⟩

theorem defines_inner : (innerDeclaration rest).Defines (innerDeclaration rest).start innerRecord :=
  ⟨{}, _, _, .refl, first_inner either, rfl, rfl⟩

/-- There are no other specifiers. -/
theorem hasSpecifiers_outer : (outerDeclaration rest).HasSpecifiers { defined := some outerRecord }
    ((Cursor.ofTokens (namelessAround rest)).drop 12) := by
  refine yields_loop_more (first_outer either) ?_ (yields_loop_stop ?_)
  · simp [outerDeclaration, left_ofTokens, namelessAround]
  · unfold Yields
    rcases either with rfl | rfl <;> cbv

theorem hasSpecifiers_inner : (innerDeclaration rest).HasSpecifiers { defined := some innerRecord }
    ((Cursor.ofTokens (namelessAround rest)).drop 9) := by
  refine yields_loop_more (first_inner either) ?_ (yields_loop_stop ?_)
  · simp [innerDeclaration, left_ofTokens, namelessAround]
  · unfold Yields
    rcases either with rfl | rfl <;> cbv

/-- The inner declaration is that of a member of the outer record. -/
theorem memberAt_nameless :
    MemberAt (outerDeclaration rest).nested namelessContext (outerDeclaration rest).start.afterAttributes
      none ⟨.pub, 0⟩ (innerDeclaration rest).start := by
  have head : HeadAt (outerDeclaration rest).nested namelessContext
      (outerDeclaration rest).start.afterAttributes .struct none []
      ((Cursor.ofTokens (namelessAround rest)).drop 1) := by
    unfold HeadAt Yields
    rcases either with rfl | rfl <;> cbv
  have keyword : isRecordKeyword (next namelessContext
      (outerDeclaration rest).start.afterAttributes.ahead) := by
    rcases either with rfl | rfl <;> cbv
  refine ⟨keyword, _, _, _, _, head, rfl, rfl, ?_, ⟨rfl, rfl⟩, fun ends => by cases ends⟩
  have behind : ((Cursor.ofTokens (namelessAround rest)).drop 1).drop 1 = (innerDeclaration rest).start :=
    Cursor.ext (by simp [innerDeclaration])
  rw [behind]
  exact .refl

/-- The record `B` is written in the body of the record without a name. -/
theorem written_nameless :
    InUnit (namelessAround rest) [(outerDeclaration rest, outerRecord)] (innerDeclaration rest)
      innerRecord := by
  have split : splitEnd (namelessAround rest) = (namelessAround rest, .eofAt .synthetic) := by
    rcases either with rfl | rfl <;> rfl
  have levels : (outerDeclaration rest).start.left = rest.length + 12 + 1 := by
    simp [outerDeclaration, left_ofTokens, namelessAround]
  have plain : Begins (outerDeclaration rest).nested namelessContext (outerDeclaration rest).start none
      (outerDeclaration rest).start := .plain ⟨rfl, rfl, rfl⟩
  have plainInner : Begins (innerDeclaration rest).nested (namelessContext.enter [])
      (innerDeclaration rest).start none (innerDeclaration rest).start := .plain ⟨rfl, rfl, rfl⟩
  have inner := InBody.here plainInner (defines_inner either)
  refine ⟨_, _, (outerDeclaration rest).start, namelessContext, (outerDeclaration rest).start, split,
    ⟨.refl, rfl, rfl⟩, .here ⟨rfl, rfl⟩, ?_⟩
  rw [levels]
  exact .inner plain (defines_outer either) (memberAt_nameless either) inner

theorem not_friend_inner : ¬(innerDeclaration rest).IsFriend := by
  rintro ⟨specs, t, read, friend⟩
  obtain ⟨rfl, -⟩ := (hasSpecifiers_inner either).unique read
  cases friend

end

/-- A record that stands alone is not dropped. -/
theorem not_drops_outer : ¬(outerDeclaration []).Drops outerRecord := by
  rintro (⟨specs, t, read, friend⟩ | ⟨⟨specs, t, read, more⟩, -⟩)
  all_goals obtain ⟨rfl, rfl⟩ := (hasSpecifiers_outer (.inl rfl)).unique read
  · cases friend
  · cases more

theorem definition_kept_nameless :
    ((parseUnit (namelessAround [])).2 = [] ∧
      InUnit (namelessAround []) [(outerDeclaration [], outerRecord)] (innerDeclaration [])
        innerRecord ∧
      innerRecord.name.isSome ∧ ¬(innerDeclaration []).IsFriend ∧
        ∀ w r, (w, r) ∈ [(outerDeclaration [], outerRecord)] → ¬w.Drops r) ∧
      ∃ r params origin, innerRecord.Under r ∧ r.name.isSome ∧
        InItems (.decl (r.toDecl params) r.nested origin) (parseUnit (namelessAround [])).1 := by
  have fine : (parseUnit (namelessAround [])).2 = [] := by cbv
  have written := written_nameless (.inl rfl)
  have friend : ¬(innerDeclaration []).IsFriend := not_friend_inner (.inl rfl)
  have kept : ∀ w r, (w, r) ∈ [(outerDeclaration [], outerRecord)] → ¬w.Drops r := by
    intro w r mem
    obtain ⟨rfl, rfl⟩ := Prod.mk.inj (List.mem_singleton.mp mem)
    exact not_drops_outer
  exact ⟨⟨fine, written, rfl, friend, kept⟩, definition_kept fine written (.inl rfl) friend kept⟩

theorem Defined.toDecl_ne_var (r : Defined) (params : Option (List (TemplateParam TypeExpr)))
    (x : VariableDecl TypeExpr) : r.toDecl params ≠ .var x := by
  unfold toDecl
  split
  · nofun
  · split <;> nofun
  · nofun

/-- With a name behind the outer record, that is its only item, and the record `B` is lost. -/
theorem nested_definition_lost :
    ((parseUnit (namelessAround nameBehind)).2 = [] ∧
      InUnit (namelessAround nameBehind) [(outerDeclaration nameBehind, outerRecord)]
        (innerDeclaration nameBehind) innerRecord ∧ innerRecord.name = some "B") ∧
      ∀ r params origin, innerRecord.Under r →
        ¬InItems (.decl (r.toDecl params) r.nested origin) (parseUnit (namelessAround nameBehind)).1 := by
  have unit : parseUnit (namelessAround nameBehind) =
      ([.decl (.var ⟨"v", .record ⟨none, .struct, [⟨some "b", .elaborated .struct (.simple "B"), none, .pub,
        0, false⟩], [], [], true, false⟩, false, false⟩) [] .synthetic], []) := by cbv
  refine ⟨⟨congrArg Prod.snd unit, written_nameless (.inr rfl), rfl⟩, ?_⟩
  rintro r params origin under mem
  rw [unit] at mem
  cases mem with
  | here mem => exact r.toDecl_ne_var _ _ (Item.decl.inj (List.mem_singleton.mp mem)).1
  | nested mem inner =>
    obtain ⟨-, rfl, -⟩ := Item.decl.inj (List.mem_singleton.mp mem)
    cases inner <;> rename_i mem <;> cases mem
  | inNamespace mem inner => cases List.mem_singleton.mp mem

end HeaderDecl.Grammar
