import HeaderDecl.Proofs.CompleteUnits
import HeaderDecl.Proofs.KeptDefinitions

/-!
Definitions under qualified names. A definition is declared under the last segment of its name, in the
scope that it stands in: the segments before that one do not lead it anywhere.
-/

namespace HeaderDecl

namespace Grammar

open HeaderDecl.Grammar.Parser

/-! ### What definitions are read as -/

namespace Parser

variable {α : Type} {Q : α → Prop}

theorem always_unknownMacro : (unknownMacro : Parser α).Always Q :=
  fun _ _ _ _ run => absurd run not_yields_unknownMacro

end Parser

namespace Defined

/-- Whether the body of a definition was there. -/
def isComplete (d : Defined) : Bool :=
  match d.body with
  | .inl r => r.complete
  | .inr e => e.complete

/-- A definition has its body, and the name of the last segment of what it was written under. -/
structure Described (d : Defined) : Prop where
  name : d.name = d.path.map (·.last.name)
  complete : d.isComplete = true

end Defined

/-- Specifiers define what they did before, or something that is described. -/
def Describes (before after : Specifiers) : Prop :=
  after.defined = before.defined ∨ ∃ d, after.defined = some d ∧ d.Described

/-- The rest of a record describes what it defines. -/
theorem always_recordRest (P : Nested) (before : Specifiers) (kind : RecordKind) (path : Option PathExpr)
    (bases : List (BaseSpec PathExpr)) :
    (recordRest P before kind path bases).Always (Describes before) := by
  unfold recordRest
  refine always_bind fun brace => ?_
  split
  · exact always_bind fun members => always_pure (.inr ⟨_, rfl, rfl, rfl⟩)
  · cases path with
    | none => exact always_failHere
    | some p => exact always_pure (.inl rfl)

theorem always_record (P : Nested) (before : Specifiers) :
    (record P before).Always (Describes before) := by
  rw [record_eq]
  unfold recordHead
  refine always_bind fun kind => always_bind fun _ => always_bind fun start => always_bind fun path =>
    always_bind fun known => ?_
  have behind (word : Bool) : (do
      if word then let _ ← advance
      let bases ← if ← take .colon then bases P (recordKindOf kind) else pure []
      recordRest P before (recordKindOf kind) path bases).Always (Describes before) := by
    have bases : (do
        let bases ← if ← take .colon then bases P (recordKindOf kind) else pure []
        recordRest P before (recordKindOf kind) path bases).Always (Describes before) := by
      refine always_bind fun colon => ?_
      dsimp only
      split
      all_goals exact always_bind fun bases => always_recordRest _ _ _ _ _
    dsimp only
    split
    · exact always_bind fun _ => bases
    · exact bases
  split
  · exact always_bind fun _ =>
      (always_unknownMacro (Q := fun _ => False)).bind fun _ never => never.elim
  · exact always_bind behind

/-- An enum is defined with its members, or is only named. -/
theorem always_enum {P : Nested} {before : Specifiers} {Q : Specifiers → Prop}
    (defines : ∀ (e : EnumDecl TypeExpr) (path : Option PathExpr), e.name = path.map (·.last.name) →
      e.complete = true → Q { before with defined := some { body := .inr e, path } })
    (names : ∀ (e : EnumDecl TypeExpr) (p : PathExpr), Q { before with
      base := some (.elaborated .enum p), forward := some { body := .inr e, path := some p } }) :
    (enum P before).Always Q := by
  refine always_bind fun _ => always_bind fun isClass => ?_
  extract_lets rest
  have last (isScoped : Bool) : (rest isScoped).Always Q := by
    refine always_bind fun _ => always_bind fun path => always_bind fun colon => ?_
    extract_lets -underBinder define
    have named (underlying : TypeExpr) : (define underlying).Always Q := by
      refine always_bind fun brace => ?_
      split
      · exact always_bind fun members => always_pure (defines _ path rfl rfl)
      · cases path with
        | none => exact always_failHere
        | some p => exact always_pure (names _ p)
    split
    · exact always_bind named
    · exact named _
  split
  · exact last true
  · exact always_bind last

/-- Specifiers define and declare what they did before. -/
def Specifiers.SameTags (before after : Specifiers) : Prop :=
  after.defined = before.defined ∧ after.forward = before.forward

/-- The name of a type defines nothing. -/
theorem always_typeName (P : Nested) (record : Option String) (before : Specifiers) :
    (typeName P record before).Always fun r => before.SameTags r.1 := by
  have stops : (pure (before, false) : Parser (Specifiers × Bool)).Always
      fun r => before.SameTags r.1 := always_pure ⟨rfl, rfl⟩
  have macros {f : Unit → Parser (Specifiers × Bool)} :
      (unknownMacro >>= f).Always fun r => before.SameTags r.1 :=
    (always_unknownMacro (Q := fun _ => False)).bind fun _ never => never.elim
  have named (start : Cursor) : (do
      let path ← namePath P
      if path.isQualified && (← isNext .lparen) then
        goTo start
        return (before, false)
      if path.isSimple && (← looksLikeMacro) then
        goTo start
        unknownMacro
      return ({ before with base := some (.path path) }, true) : Parser (Specifiers × Bool)).Always
        fun r => before.SameTags r.1 := by
    refine always_bind fun path => always_bind fun call => always_ite (always_bind fun _ => stops) ?_
    exact always_bind fun api => always_ite (always_bind fun _ => macros) (always_pure ⟨rfl, rfl⟩)
  unfold typeName
  refine always_bind fun start => always_bind fun t => always_bind fun behind => ?_
  exact always_ite (always_ite stops macros) (named start)

/-- What a specifier defines is described. -/
theorem always_specifierStep (P : Nested) (record : Option String) (before : Specifiers) :
    (specifierStep P record before).Always fun r => Describes before r.1 := by
  have stops : (pure (before, false) : Parser (Specifiers × Bool)).Always
      fun r => Describes before r.1 := always_pure (.inl rfl)
  have passes {s : Specifiers} (same : s.defined = before.defined) :
      (advance >>= fun _ => pure (s, true) : Parser (Specifiers × Bool)).Always
        fun r => Describes before r.1 := always_bind fun _ => always_pure (.inl same)
  have type : (typeName P record before).Always fun r => Describes before r.1 :=
    (always_typeName P record before).mono fun r same => .inl same.1
  unfold specifierStep
  refine always_bind fun _ => always_bind fun t => ?_
  dsimp only
  split
  case h_2 => exact always_bind fun behind => always_ite (always_bind fun _ => passes rfl) (passes rfl)
  case h_14 | h_15 | h_16 =>
    exact always_ite stops ((always_record P before).bind fun after kept => always_pure kept)
  case h_17 =>
    have describes : (enum P before).Always (Describes before) :=
      always_enum (fun e path named complete => .inr ⟨_, rfl, named, complete⟩) fun e p => .inl rfl
    exact always_ite stops (describes.bind fun after kept => always_pure kept)
  case h_18 =>
    exact always_ite stops (always_bind fun _ => always_bind fun path => always_pure (.inl rfl))
  case h_19 => exact always_ite (passes rfl) stops
  case h_20 => exact always_ite (passes rfl) (always_ite stops type)
  case h_21 => exact always_ite stops type
  case h_22 => exact stops
  all_goals exact passes rfl

theorem Site.Defines.described {w : Site} {v : Cursor} {d : Defined} (h : w.Defines v d) :
    d.Described := by
  obtain ⟨before, after, t, visits, step, undefined, defined⟩ := h
  rcases always_specifierStep _ _ _ _ _ _ _ step with same | ⟨d', defined', described⟩
  · rw [same, undefined] at defined
    cases defined
  · rw [defined] at defined'
    cases defined'
    exact described

theorem InBody.described {n : Nat} {member : Option MemberContext} {c : Context} {s : Cursor}
    {outer : List (Site × Defined)} {w : Site} {d : Defined} (h : InBody n member c s outer w d) :
    d.Described := by
  induction h with
  | here begins defines => exact defines.described
  | inner begins defines place inside ih => exact ih

theorem Defined.Under.isComplete {d r : Defined} (h : d.Under r) : r.isComplete = d.isComplete := by
  rcases h with rfl | ⟨name, rfl⟩
  · rfl
  · unfold namedByTypedef Defined.isComplete
    cases d.body with
    | inl r => rfl
    | inr e => rfl

/-! ### Where definitions stand -/

open Resolution (View Stands memberView)

/-- The view from within definitions, each of which stands within the one before it and is handed on under
its own name or under one that a typedef gives it. -/
inductive Encloses : List (Site × Defined) → View → View → Prop
  | nil {v : View} : Encloses [] v v
  | cons {w : Site} {r r' : Defined} {params : Option (List (TemplateParam TypeExpr))}
      {outer : List (Site × Defined)} {v view : View} (under : r.Under r')
      (within : Encloses outer ((memberView v (r'.toDecl params)).getD v) view) :
      Encloses ((w, r) :: outer) v view

section Stands

variable {dd : ParsedDecl} {o : Origin} {view v : View}

theorem stands_mono {items items' : List Item} (h : Stands dd o view v items)
    (sub : ∀ j ∈ items, j ∈ items') : Stands dd o view v items' := by
  cases h with
  | here mem => exact .here (sub _ mem)
  | inNamespace mem within => exact .inNamespace (sub _ mem) within
  | inUnnamed mem within => exact .inUnnamed (sub _ mem) within
  | inRecord mem within => exact .inRecord (sub _ mem) within

/-- What stands among the items of a namespace sees the scopes of its names, one in another. -/
theorem stands_inNamespaces {origin : Origin} {items : List Item} (names : List String)
    (h : Stands dd o view (names.foldl View.enter v) items) :
    Stands dd o view v [inNamespaces origin items names] := by
  induction names generalizing v with
  | nil => exact .inUnnamed List.mem_cons_self h
  | cons name rest ih =>
    cases rest with
    | nil => exact .inNamespace List.mem_cons_self h
    | cons => exact .inNamespace List.mem_cons_self (ih h)

variable {P : Nested} {member : Option MemberContext} {c : Context} {s u : Cursor}
  {template : Option (List (TemplateParam TypeExpr))} {origin : Origin} {d : Defined} {D : Declared}
  {e : List Token}

/-- What stands within a definition that is not dropped is looked at from within it. -/
theorem stands_nested (h : (declaration P member template origin).Reads c s.ahead D e)
    (defines : Site.Defines ⟨P, member, c, s⟩ u d) (kept : ¬Site.Drops ⟨P, member, c, s⟩ d) :
    ∃ r params, d.Under r ∧ ∀ (dd : ParsedDecl) (o : Origin) (view v : View),
      Stands dd o view ((memberView v (r.toDecl params)).getD v) d.nested → Stands dd o view v D.items := by
  have friend : ¬Site.IsFriend ⟨P, member, c, s⟩ := fun isFriend => kept (.inl isFriend)
  obtain ⟨specs, t, specifiers, defined, ⟨semicolon, rfl⟩ | ⟨more, ds, _, many, rfl⟩⟩ :=
    declaration_cases h defines friend
  · unfold declareAlone
    simp only [defined, Option.some_or]
    split
    · -- An anonymous member has no scope of its own.
      rename_i body nameless
      have pathless : d.path = none := by
        have described := defines.described.name
        rw [nameless] at described
        exact Option.map_eq_none_iff.mp described.symm
      refine ⟨d, none, .inl rfl, fun dd o view v stands => ?_⟩
      have outside : memberView v (d.toDecl none) = none := by
        rw [Defined.name, body] at nameless
        simp only [Defined.toDecl, body, pathless, Option.bind_none]
        exact Option.map_eq_none_iff.mpr nameless
      rwa [outside] at stands
    · exact ⟨d, template, .inl rfl, fun dd o view v stands =>
        .inRecord (List.mem_singleton_self _) stands⟩
  · obtain ⟨r, eq, isNamed⟩ := exists_given defined (named_of_not_drops kept specifiers more many)
    refine ⟨r, none, under_given defined eq, fun dd o view v stands => ?_⟩
    exact .inRecord (mem_declare eq isNamed) ((under_given defined eq).nested ▸ stands)

/-- A definition that is written in the bodies of records, at any depth, stands within them. -/
theorem stands_of_inBody {n : Nat} {outer : List (Site × Defined)} {w : Site} {name : String}
    (inside : InBody n member c s outer w d)
    (h : (anyDeclaration (.upTo n) member).Reads c s.ahead D e) (friend : ¬w.IsFriend)
    (named : d.name = some name) (kept : ∀ w' r, (w', r) ∈ outer → ¬w'.Drops r) :
    ∃ r params origin, d.Under r ∧ r.name = some name ∧
      ∀ v, ∃ view, Encloses outer v view ∧ Stands (r.toDecl params) origin view v D.items := by
  induction inside generalizing D e with
  | here begins defines =>
    have isNamed := Option.isSome_of_eq_some named
    obtain ⟨r, params, under, -, own, mem⟩ := own_kept (begins.reads h) defines friend (.inl isNamed)
    exact ⟨r, params, _, under, own _ named, fun v => ⟨v, .nil, .here mem⟩⟩
  | inner begins defines place inside ih =>
    have h := begins.reads h
    obtain ⟨specs, t, read, -⟩ := reads_bind.mp h
    obtain ⟨before, after, e', record, defined⟩ := defines.record read place.1
    obtain ⟨D', e'', member, -, sub⟩ := place.reads record defined
    obtain ⟨r, params, origin, under, isNamed, stands⟩ :=
      ih member friend named fun w' r mem => kept w' r (List.mem_cons_of_mem _ mem)
    obtain ⟨r', params', under', nested⟩ := stands_nested h defines (kept _ _ List.mem_cons_self)
    refine ⟨r, params, origin, under, isNamed, fun v => ?_⟩
    obtain ⟨view, encloses, there⟩ := stands ((memberView v (r'.toDecl params')).getD v)
    exact ⟨view, .cons under' encloses, nested _ _ _ _ (stands_mono there sub)⟩

/-- What a declaration in blocks declares stands in the namespaces around it. -/
theorem stands_of_inItem {n : Nat} {c' : Context} {x : Cursor} (inside : InItem P n c u c' x)
    (h : (item P (block P n)).Reads c u.ahead D e) :
    ∃ D' e' names, (anyDeclaration P none).Reads c' x.ahead D' e' ∧ c'.scope = c.scope ++ names ∧
      ∀ (dd : ParsedDecl) (o : Origin) (view v : View),
        Stands dd o view (names.foldl View.enter v) D'.items → Stands dd o view v D.items := by
  induction inside generalizing D e with
  | here single =>
    have h := reads_elsewhere single.1 h
    rw [if_neg (by simp [single.2])] at h
    exact ⟨D, e, [], h, (List.append_nil _).symm, fun dd o view v stands => stands⟩
  | block opens place inside ih =>
    obtain ⟨is, e', inner, made⟩ := opens.reads h
    obtain ⟨D', e'', one, sub⟩ := place.reads inner
    obtain ⟨D'', e3, names, declaration, scope, within⟩ := ih one
    rcases made with ⟨rfl, made⟩ | ⟨origin, names', rfl, made⟩
    · refine ⟨D'', e3, names, declaration, scope, fun dd o view v stands => ?_⟩
      exact made ▸ stands_mono (within dd o view v stands) sub
    · refine ⟨D'', e3, names' ++ names, declaration, ?_, fun dd o view v stands => ?_⟩
      · rw [scope, Context.enter, List.append_assoc]
      · rw [List.foldl_append] at stands
        exact made ▸ stands_inNamespaces names' (stands_mono (within dd o view _ stands) sub)

end Stands

/-- The declaration that a definition is written in, or the outermost one around it. -/
def outermost (outer : List (Site × Defined)) (w : Site) : Site := (outer.head?.map Prod.fst).getD w

theorem InBody.outermost {n : Nat} {member : Option MemberContext} {c : Context} {s : Cursor}
    {outer : List (Site × Defined)} {w : Site} {d : Defined} (h : InBody n member c s outer w d) :
    (Grammar.outermost outer w).context = c := by
  cases h with
  | here begins defines => rfl
  | inner begins defines place inside => rfl

/-- Where a definition is written there stands an item, in the namespaces and definitions around it. -/
theorem stands_of_inUnit {tokens : List Token} {outer : List (Site × Defined)} {w : Site} {d : Defined}
    {name : String} (fine : (parseUnit tokens).2 = []) (written : InUnit tokens outer w d)
    (named : d.name = some name) (friend : ¬w.IsFriend)
    (kept : ∀ w' r, (w', r) ∈ outer → ¬w'.Drops r) :
    ∃ r params origin view, d.Under r ∧ r.name = some name ∧
      Encloses outer ((outermost outer w).context.scope.foldl View.enter {}) view ∧
      Stands (r.toDecl params) origin view {} (parseUnit tokens).1 := by
  obtain ⟨ts, eof, u, c, v, split, place, inItem, inBody⟩ := written
  obtain ⟨t, read⟩ := reads_of_parseUnit fine
  rw [split] at read
  obtain ⟨D, e, one, sub⟩ := place.reads (s := .ofTokens ts) read
  have one : (item (.upTo u.left) (block (.upTo u.left) u.left)).Reads { eof } u.ahead D e :=
    one.rest (yields_here.mpr ⟨rfl, rfl⟩)
  obtain ⟨D', e', names, declaration, scope, within⟩ := stands_of_inItem inItem one
  obtain ⟨r, params, origin, under, isNamed, stands⟩ :=
    stands_of_inBody inBody declaration friend named kept
  obtain ⟨view, encloses, there⟩ := stands (names.foldl View.enter {})
  have around : (outermost outer w).context.scope = names := by
    rw [inBody.outermost, scope]
    rfl
  refine ⟨r, params, origin, view, under, isNamed, around ▸ encloses, ?_⟩
  exact stands_mono (within _ _ _ _ there) sub

/-- The declaration of a definition has its name. -/
theorem Defined.name_toDecl (d : Defined) (params : Option (List (TemplateParam TypeExpr))) :
    (d.toDecl params).name = d.name := by
  unfold toDecl Defined.name
  cases d.body with
  | inl r =>
    cases d.path.bind fun p => p.last.args with
    | some args => rfl
    | none => rcases params with _ | _ | ⟨p, ps⟩ <;> rfl
  | inr e => rfl

end Grammar

namespace Model

/-- A scope of the model has a complete declaration of a name. -/
def Completes (m : Model) (scope name : String) : Prop :=
  ∃ s ∈ m.scope? scope, ∃ e ∈ s.entries, e.decl.name = some name ∧ e.isComplete = true

instance (m : Model) (scope name : String) : Decidable (m.Completes scope name) :=
  inferInstanceAs (Decidable (∃ s ∈ m.scope? scope, ∃ e ∈ s.entries,
    e.decl.name = some name ∧ e.isComplete = true))

variable {log : List Inserted} {m : Model} {x y : Inserted}

/-- What is kept of a class that had something complete in it is complete. -/
theorem kept_complete (hx : x ∈ log) (keyed : y.key?.isSome) (same : x.key? = y.key?)
    (complete : x.entry.isComplete) : (kept log y).isComplete := by
  unfold kept
  cases found : log.find? fun z => y.key?.isSome && z.key? = y.key? && z.entry.isComplete with
  | none => exact absurd (by simp [keyed, same, complete]) (List.find?_eq_none.mp found x hx)
  | some z =>
    have whole := List.find?_some found
    rw [Bool.and_eq_true] at whole
    exact whole.2

/-- What a scope has for a complete insertion under a name is complete. -/
theorem History.completes {name : String} (h : History log m) (hx : x ∈ log)
    (named : x.entry.decl.name = some name) (complete : x.entry.isComplete)
    (retains : m.Retains x.path x.entry) : m.Completes x.path name := by
  obtain ⟨s, found, e, mem, sameName, sameId, -⟩ := retains
  refine ⟨s, found, e, mem, sameName.trans named, ?_⟩
  obtain ⟨i, scope, hs⟩ := Option.bind_eq_some_iff.mp found
  obtain ⟨j, hj⟩ := List.getElem?_of_mem mem
  have held : m.entry? ⟨i, j⟩ = some e := by rwa [Model.entry?_of_scope hs]
  obtain ⟨y, hy, place, rfl⟩ := (h.tracks.slots _ e).mp held
  rcases kept_cases log y with own | ⟨z, -, -, -, whole, same⟩
  · -- It was appended under that name itself, so that it is of the class of the insertion.
    obtain ⟨s', hs', path⟩ := h.tracks.located y hy _ place
    obtain ⟨s'', hs'', path'⟩ := (h.tracks.valid.index _ _).mp scope
    have samePath : y.path = x.path := by
      rw [← path, ← path', Option.some.inj (hs'.symm.trans hs'')]
    rw [own] at sameName sameId
    have sameKey : x.key? = y.key? := by
      unfold Inserted.key? Inserted.qualifiedName
      rw [sameName, sameId, samePath]
    have keyed : y.key?.isSome := by
      rw [← sameKey, key?_isSome, named]
      rfl
    exact kept_complete hx keyed sameKey complete
  · rw [same]
    exact whole

end Model

namespace Resolution

variable {jump : Jump}

theorem resolveRecord_complete (site : Site) (r : ParsedRecord) :
    Returns (resolveRecord jump site r) (fun r' => r'.complete = r.complete) := by
  unfold resolveRecord
  exact .after fun fs => .after fun ms => .after fun bs => .pure rfl

theorem resolveSpecialization_complete (site inner : Site)
    (s : SpecializationDecl TypeExpr ArgExpr PathExpr) :
    Returns (resolveSpecialization jump site s inner)
      (fun s' => s'.record.complete = s.record.complete) := by
  unfold resolveSpecialization
  refine .after fun u => ?_
  dsimp only
  split
  · exact .after fun _ => .after fun ps => .after fun args =>
      (resolveRecord_complete inner s.record).bind fun r hr => .pure hr
  · exact .after fun ps => .after fun args =>
      (resolveRecord_complete inner s.record).bind fun r hr => .pure hr

/-- The resolved form of a definition has its body if the definition has. -/
theorem resolveDecl_complete (site : Site) (d : Grammar.Defined)
    (params : Option (List (TemplateParam TypeExpr))) :
    Returns (resolveDecl jump site (d.toDecl params))
      (fun d' => d'.completeness? = some d.isComplete) := by
  have record (r : ParsedRecord) (site : Site) :
      Returns (resolveRecord jump site r) (fun r' => some r'.complete = some r.complete) := by
    intro s r' t run
    rw [resolveRecord_complete site r s r' t run]
  unfold Grammar.Defined.toDecl Grammar.Defined.isComplete resolveDecl
  cases d.body with
  | inl r =>
    cases d.path.bind fun p => p.last.args with
    | some args =>
      exact (resolveSpecialization_complete _ _ _).bind fun s same => .pure (congrArg some same)
    | none =>
      rcases params with _ | _ | ⟨p, ps⟩
      · exact (record r _).bind fun r' same => .pure same
      · exact (record r _).bind fun r' same => .pure same
      · exact .after fun ps => (record r _).bind fun r' same => .pure same
  | inr e =>
    dsimp only
    unfold resolveEnum
    exact .bind (.after fun t => .pure rfl) fun e' (same : e'.complete = e.complete) =>
      .pure (congrArg some same)

section Definitions

open Grammar

variable {tokens : List Token} {constants : List MacroConstant} {config : Config} {m : Model}
  {ds : List Diagnostic} {outer : List (Grammar.Site × Defined)} {w : Grammar.Site} {d : Defined}
  {p : PathExpr}

/-- A definition is complete in the model under the last segment of the name that it is written with, in
the scope that it stands in, whatever the segments before that one are: for tokens that are read without a
report and resolve, each definition with a name, outside of any record or in the bodies of records,
is an item in the namespaces and definitions around it, its resolved form is inserted in their scope, and
that scope has a complete declaration of that name. -/
theorem definition_completes_last (spelled : ∀ t ∈ tokens, t.Spelled) (fine : (parseUnit tokens).2 = [])
    (run : resolve (parseUnit tokens).1 constants config = (.ok m, ds))
    (written : InUnit tokens outer w d) (path : d.path = some p) (friend : ¬w.IsFriend)
    (kept : ∀ w' r, (w', r) ∈ outer → ¬w'.Drops r) :
    ∃ r params origin view, d.Under r ∧
      Encloses outer ((outermost outer w).context.scope.foldl View.enter {}) view ∧
      Stands (r.toDecl params) origin view {} (parseUnit tokens).1 ∧
      (∃ log d' outcome, Complete (parseUnit tokens).1 constants config m ds log ∧
        ⟨view.scope, ⟨d', origin⟩, outcome⟩ ∈ log ∧ d'.name = some p.last.name ∧
          d'.completeness? = some true) ∧
      m.Completes view.scope p.last.name := by
  obtain ⟨ts, eof, u, c, v, -, -, -, inBody⟩ := id written
  have described := inBody.described
  have named : d.name = some p.last.name := by
    rw [described.name, path]
    rfl
  obtain ⟨r, params, origin, view, under, name, encloses, stands⟩ :=
    stands_of_inUnit fine written named friend kept
  obtain ⟨log, complete⟩ := resolve_complete spelled run
  obtain ⟨d', outcome, mem, sameName, ⟨s, t, resolved⟩, retains⟩ :=
    complete.declared (r.toDecl params) origin view stands
  have name' : d'.name = some p.last.name := by
    rw [sameName, r.name_toDecl, name]
  have whole : d'.completeness? = some true := by
    rw [resolveDecl_complete _ r params _ _ _ resolved, under.isComplete, described.complete]
  have isComplete : Entry.isComplete ⟨d', origin⟩ = true := by
    simp [Entry.isComplete, whole]
  exact ⟨r, params, origin, view, under, encloses, stands,
    ⟨log, d', outcome, complete, mem, name', whole⟩,
    complete.history.completes mem name' isComplete retains⟩

/-- The tokens of `namespace n { struct A; } struct n::A { int x; };`. -/
def besideTokens : List Token :=
  [.synthetic (.kw .namespaceKw) "namespace", .synthetic .identifier "n",
    .synthetic (.punct .lbrace) "\x7b", .synthetic (.kw .struct) "struct", .synthetic .identifier "A",
    .synthetic (.punct .semicolon) ";", .synthetic (.punct .rbrace) "\x7d",
    .synthetic (.kw .struct) "struct", .synthetic .identifier "n",
    .synthetic (.punct .colonColon) "::", .synthetic .identifier "A",
    .synthetic (.punct .lbrace) "\x7b", .synthetic (.kw .int) "int", .synthetic .identifier "x",
    .synthetic (.punct .semicolon) ";", .synthetic (.punct .rbrace) "\x7d",
    .synthetic (.punct .semicolon) ";"]

def besidePath : PathExpr := ⟨false, [⟨"n", none⟩], ⟨"A", none⟩⟩

/-- The record `n::A`. -/
def besideRecord : Defined where
  body := .inl ⟨some "A", .struct, [⟨some "x", .primitive .int, none, .pub, 0, false⟩], [], [], true, false⟩
  path := some besidePath

/-- Its declaration, which stands behind that of the namespace. -/
def besideDeclaration : Grammar.Site :=
  ⟨.upTo 10, none, { eof := .eofAt .synthetic }, (Cursor.ofTokens besideTokens).drop 7⟩

/-- Its first specifier is the record, and there is no other one. -/
theorem first_beside :
    (specifierStep besideDeclaration.nested besideDeclaration.record {}).Yields
      besideDeclaration.context besideDeclaration.start
      ({ defined := some besideRecord }, true) ((Cursor.ofTokens besideTokens).drop 16) := by
  unfold Parser.Yields
  cbv

theorem hasSpecifiers_beside : besideDeclaration.HasSpecifiers { defined := some besideRecord }
    ((Cursor.ofTokens besideTokens).drop 16) := by
  refine Parser.yields_loop_more first_beside ?_ (Parser.yields_loop_stop ?_)
  · simp [besideDeclaration, Parser.left_ofTokens, besideTokens]
  · unfold Parser.Yields
    cbv

theorem written_beside : InUnit besideTokens [] besideDeclaration besideRecord := by
  have split : splitEnd besideTokens = (besideTokens, .eofAt .synthetic) := rfl
  have around : Parser.GatherGoes (Parser.gathering (itemStep [] topItem)) besideDeclaration.context
      ((), .ofTokens besideTokens) ((), besideDeclaration.start) := by
    unfold Parser.GatherGoes Parser.Yields
    exact ⟨_, by cbv⟩
  have plain : Begins besideDeclaration.nested besideDeclaration.context besideDeclaration.start none
      besideDeclaration.start := .plain ⟨rfl, rfl, rfl⟩
  exact ⟨_, _, besideDeclaration.start, besideDeclaration.context, besideDeclaration.start, split,
    ⟨.single around, rfl, rfl⟩, .here ⟨rfl, rfl⟩,
    .here plain ⟨{}, _, _, .refl, first_beside, rfl, rfl⟩⟩

theorem not_friend_beside : ¬besideDeclaration.IsFriend := by
  rintro ⟨specs, t, read, friend⟩
  obtain ⟨rfl, -⟩ := hasSpecifiers_beside.unique read
  cases friend

theorem definition_completes_last_beside : ∃ m ds,
    ((∀ t ∈ besideTokens, t.Spelled) ∧ (parseUnit besideTokens).2 = [] ∧
      resolve (parseUnit besideTokens).1 [] {} = (.ok m, ds) ∧
      InUnit besideTokens [] besideDeclaration besideRecord ∧ besideRecord.path = some besidePath ∧
      ¬besideDeclaration.IsFriend) ∧
    ∃ r params origin view, besideRecord.Under r ∧
      Encloses [] ((outermost [] besideDeclaration).context.scope.foldl View.enter {}) view ∧
      Stands (r.toDecl params) origin view {} (parseUnit besideTokens).1 ∧
      (∃ log d' outcome, Complete (parseUnit besideTokens).1 [] {} m ds log ∧
        ⟨view.scope, ⟨d', origin⟩, outcome⟩ ∈ log ∧ d'.name = some "A" ∧
          d'.completeness? = some true) ∧
      m.Completes view.scope "A" := by
  have spelled : ∀ t ∈ besideTokens, t.Spelled := by decide
  have fine : (parseUnit besideTokens).2 = [] := by cbv
  have ok : (resolve (parseUnit besideTokens).1 [] {}).1.toBool = true := by decide +kernel
  rcases run : resolve (parseUnit besideTokens).1 [] {} with ⟨_ | m, ds⟩
  · rw [run] at ok
    cases ok
  · exact ⟨m, ds, ⟨spelled, fine, rfl, written_beside, rfl, not_friend_beside⟩,
      definition_completes_last spelled fine run written_beside rfl not_friend_beside
        fun _ _ mem => absurd mem List.not_mem_nil⟩

/-- The record completes no declaration in the namespace that it names. It is one of its own, in the
global scope. -/
theorem definition_misses_declaration : ∃ m ds,
    resolve (parseUnit besideTokens).1 [] {} = (.ok m, ds) ∧
      InUnit besideTokens [] besideDeclaration besideRecord ∧ besideRecord.path = some besidePath ∧
      (m.scope? "n").isSome ∧ ¬m.Completes "n" "A" ∧ m.Completes "" "A" := by
  have found : (resolve (parseUnit besideTokens).1 [] {}).1.toOption.map (fun m =>
      ((m.scope? "n").isSome, decide (m.Completes "n" "A"), decide (m.Completes "" "A"))) =
        some (true, false, true) := by decide +kernel
  rcases run : resolve (parseUnit besideTokens).1 [] {} with ⟨_ | m, ds⟩
  · rw [run] at found
    cases found
  · rw [run] at found
    simp only [Except.toOption, Option.map_some, Option.some.injEq, Prod.mk.injEq, decide_eq_true_eq,
      decide_eq_false_iff_not] at found
    obtain ⟨declared, misses, global⟩ := found
    exact ⟨m, ds, rfl, written_beside, rfl, declared, misses, global⟩

end Definitions

end Resolution

end HeaderDecl
