import HeaderDecl.Proofs.PlainParts

/-!
The names, records and enums that are read from spelled tokens, and specifiers with them, are written with
identifiers, if what nests in them is.
-/

namespace HeaderDecl.Grammar

open HeaderDecl.Grammar.Parser

/-- What the parsers of what may nest give from spelled tokens. -/
structure Nested.Gives (P : Nested) : Prop where
  type : ∀ c s, P.type.Gives c s TypeExpr.Plain
  specifiers : ∀ c s, P.specifiers.Gives c s Specifiers.Plain
  declarator : ∀ c s, P.declarator.Gives c s Declarator.Plain
  templateParams : ∀ c s, P.templateParams.Gives c s TemplateParam.AllPlain
  member : ∀ m c s, (P.member m).Gives c s (Declared.Plain true)

variable {c : Context} {s : Cursor}

/-! ### Recovery -/

section Recovery

variable {start : Cursor}

theorem gives_skipFrom (spelled : start.Spelled) : (skipFrom start).Gives c s fun _ => True := by
  refine gives_goTo spelled (proceeds_skipWhole.then fun ts t => ?_)
  split
  · exact gives_pass fun _ _ => gives_pure trivial
  · exact gives_pure trivial

theorem gives_recover {e : Failure} (he : e.Spelled) (spelled : start.Spelled) :
    (recover start e).Gives c s fun _ => True := by
  unfold recover
  split
  · rename_i name i _ invoked
    refine proceeds_standsAlone.then fun alone t => ?_
    extract_lets rest
    have last (u : Cursor) : (rest ()).Gives c u fun _ => True := proceeds_report.gives
    split
    · exact gives_goTo (he i invoked) (proceeds_take.then fun _ => last)
    · exact (gives_skipFrom spelled).bind fun _ u _ => last u
  · exact (gives_skipFrom spelled).bind fun _ _ _ => proceeds_report.gives

/-- What was declared in front of a failure stays. -/
theorem gives_recovering {p : Parser Declared} {inRecord : Bool}
    (h : p.Gives c s (Declared.Plain inRecord)) :
    (recovering p).Gives c s (Declared.Plain inRecord) := by
  refine gives_here fun spelled => ?_
  have tried : p.attempt.Gives c s fun r =>
      (∀ d, r = .ok d → d.Plain inRecord) ∧ ∀ e, r = .error e → e.Spelled := by
    refine gives_attempt (h.mono fun d plain => ⟨?_, ?_⟩) fun e spelled => ⟨?_, ?_⟩
    · rintro d' ⟨⟩
      exact plain
    · rintro e ⟨⟩
    · rintro d ⟨⟩
    · rintro e' ⟨⟩
      exact spelled
  refine tried.bind fun r t ⟨done, failed⟩ => ?_
  extract_lets d rest
  have plain : d.Plain inRecord := by
    cases r with
    | ok d => exact done d rfl
    | error e =>
      exact Declared.plain_of_empty rfl rfl rfl (forall_mem_some.mpr (failed e rfl))
  have last (u : Cursor) : (rest ()).Gives c u (Declared.Plain inRecord) := gives_pure plain
  split
  · rename_i e found
    exact (gives_recover (plain.failure e found) spelled).bind fun _ u _ => last u
  · exact last t

end Recovery

/-- A name that can only be a macro. Recovery goes on behind it. -/
theorem gives_unknownMacro {α : Type} : (unknownMacro : Parser α).Gives c s fun _ => False := by
  refine gives_here fun _ => gives_pass fun name t => gives_isNext fun paren => ?_
  extract_lets rest
  have last (u : Cursor) : (rest ()).Gives c u fun _ => False :=
    gives_here fun after => gives_failWith (forall_mem_some.mpr after)
  split
  · exact proceeds_skipGroup.then fun _ => last
  · exact last t

section Parts

variable {P : Nested} (nested : P.Gives)

include nested

/-! ### Names -/

theorem gives_typeArg : (typeArg P).Gives c s TypeExpr.Plain := by
  refine (nested.type _ _).bind fun ty t plain => gives_peek fun next _ _ => ?_
  split
  · exact gives_pure plain
  · exact gives_failHere

theorem gives_templateArg : (templateArg P).Gives c s fun a => ∀ t ∈ a.types, t.Plain := by
  refine gives_peek fun next _ _ => ?_
  extract_lets rest
  have last (ty : Option TypeExpr) (t : Cursor) (plain : ∀ t ∈ ty, t.Plain) :
      (rest ty).Gives c t fun a => ∀ t ∈ a.types, t.Plain := by
    unfold rest
    split
    · rename_i ty
      exact gives_pure (List.forall_mem_singleton.mpr (plain ty rfl))
    · refine proceeds_skipTo.then fun ts u => ?_
      split
      · exact gives_failHere
      · exact gives_pure (List.forall_mem_nil _)
  split
  · have arg : (typeArg P).Gives c s fun ty => ∀ t ∈ some ty, t.Plain :=
      (gives_typeArg nested).mono fun ty plain => forall_mem_some.mpr plain
    exact (gives_speculate arg forall_mem_none).bind last
  · exact last none s forall_mem_none

theorem gives_templateArgs :
    (templateArgs P).Gives c s fun args => ∀ a ∈ args, ∀ t ∈ a.types, t.Plain := by
  refine proceeds_consume.then fun _ t => ?_
  refine (gives_commaSeparated (fun a => ∀ t ∈ a.types, t.Plain) fun u => ?_).bind fun args u plain => ?_
  · exact (gives_templateArg nested).bind fun a v plain => proceeds_take.then fun _ _ =>
      gives_pure plain
  · exact proceeds_consume.then fun _ _ => gives_pure plain

theorem gives_nameSegment : (nameSegment P).Gives c s NameSegment.Plain := by
  refine proceeds_takeKw.then fun _ t => gives_consumeKind.bind fun name u ⟨kind, spelled⟩ => ?_
  refine gives_isNext fun less => ?_
  extract_lets rest
  have last (args : Option (List ArgExpr)) (v : Cursor)
      (plain : ∀ a ∈ args.getD [], ∀ t ∈ a.types, t.Plain) :
      (rest args).Gives c v NameSegment.Plain :=
    gives_pure ⟨spelled.plain kind, plain⟩
  split
  · exact (gives_templateArgs nested).map_bind fun args v plain => last _ v plain
  · exact last none u (by simp)

theorem gives_namePath : (namePath P).Gives c s PathExpr.Plain := by
  refine proceeds_take.then fun absolute t => (gives_nameSegment nested).bind fun first u plain => ?_
  refine (gives_collect NameSegment.Plain fun v => ?_).bind fun rest v later => gives_pure ?_
  · refine proceeds_segmentFollows.then fun more w => ?_
    cases more with
    | true =>
      refine gives_pass fun _ x => (gives_nameSegment nested).bind fun seg y segment => ?_
      exact gives_pure (List.forall_mem_singleton.mpr segment)
    | false => exact gives_none
  · -- The last segment is taken from the others and put behind them again.
    have all : ∀ seg ∈ first :: rest, seg.Plain := List.forall_mem_cons.mpr ⟨plain, later⟩
    rw [PathExpr.plain_iff]
    split
    · simpa [NamePath.segments] using plain
    · rename_i last found
      have whole : (first :: rest.dropLast) ++ [last] = first :: rest := by
        rw [List.cons_append, List.dropLast_append_getLast? last found]
      rw [NamePath.segments, whole]
      exact all

theorem gives_tagName : (tagName P).Gives c s fun path => ∀ p ∈ path, PathExpr.Plain p := by
  refine gives_peek fun t _ _ => ?_
  split
  · exact ((gives_namePath nested).mono fun path plain => forall_mem_some.mpr plain).map
  · exact gives_pure forall_mem_none

/-! ### Records and enums -/

theorem gives_base (kind : RecordKind) :
    (Grammar.base P kind).Gives c s fun b => PathExpr.Plain b.name := by
  refine proceeds_takeKw.then fun before t => gives_peek fun next _ _ => ?_
  extract_lets access rest
  have last (u : Cursor) : (rest ()).Gives c u fun b => PathExpr.Plain b.name := by
    refine proceeds_takeKw.then fun after v => (gives_namePath nested).bind fun name w plain => ?_
    exact proceeds_take.then fun _ _ => gives_pure plain
  split
  · exact gives_pass fun _ => last
  · exact last t

theorem gives_bases (kind : RecordKind) :
    (bases P kind).Gives c s fun bs => ∀ b ∈ bs, PathExpr.Plain b.name := by
  refine gives_collect _ fun t => (gives_base nested kind).bind fun b u plain => ?_
  exact proceeds_take.then fun _ _ => gives_pure (List.forall_mem_singleton.mpr plain)

theorem gives_memberStep (name : Option String) (m : MemberState) :
    (memberStep P name m).Gives c s fun r => ∀ d ∈ r.1, d.Plain true := by
  have member (t : Cursor) : Parser.Gives (do
      if ← take .semicolon then return ([], m, true)
      let d ← recovering (P.member ⟨name, m.access, m.fieldCount⟩)
      return ([d], { m with fieldCount := m.fieldCount + d.fields.length }, true) :
        Parser (List Declared × MemberState × Bool)) c t fun r => ∀ d ∈ r.1, d.Plain true := by
    refine proceeds_take.then fun semicolon u => ?_
    split
    · exact gives_none
    · refine (gives_recovering (nested.member _ _ _)).bind fun d v plain => ?_
      exact gives_pure (List.forall_mem_singleton.mpr plain)
  refine gives_atEndOr fun atEnd => ?_
  split
  · exact gives_none
  · refine gives_peek fun next _ _ => ?_
    split
    · refine gives_nth fun after => ?_
      split
      · exact gives_pass fun _ _ => gives_pass fun _ _ => gives_none
      · exact member s
    · exact member s

theorem gives_recordBody (name : Option String) (kind : RecordKind) :
    (recordBody P name kind).Gives c s fun members => ∀ d ∈ members, d.Plain true := by
  refine proceeds_consume.then fun _ t => ?_
  refine (gives_within (gives_collectFrom fun m u => gives_memberStep nested name m)).bind
    fun members u plain => ?_
  exact proceeds_consume.then fun _ _ => gives_pure plain

omit nested in
/-- The name at the end of a name is one of its identifiers. -/
theorem plain_last {path : Option PathExpr} (h : ∀ p ∈ path, PathExpr.Plain p) :
    ∀ n ∈ path.map (·.last.name), Name.Plain n := by
  intro n hn
  obtain ⟨p, hp, rfl⟩ := Option.map_eq_some_iff.mp hn
  exact (h p hp).1 p.last (by simp [NamePath.segments])

omit nested in
/-- A record is written with what its name, its members and its base classes are written with. -/
theorem plain_recordDefined {path : Option PathExpr} (hpath : ∀ p ∈ path, PathExpr.Plain p)
    {members : List Declared} (hmembers : ∀ d ∈ members, d.Plain true)
    {bases : List (BaseSpec PathExpr)} (hbases : ∀ b ∈ bases, PathExpr.Plain b.name)
    (kind : RecordKind) : Defined.Plain {
      body := .inl ⟨path.map (·.last.name), kind, members.flatMap Declared.fields,
        members.flatMap Declared.methods, bases, true, false⟩
      nested := members.flatMap Declared.items
      path } := by
  refine ⟨TypeExpr.plain_record.mpr ⟨?_, hbases⟩, plain_last hpath, ?_, hpath⟩
  · refine List.forall_mem_append.mpr ⟨?_, ?_⟩
    · exact List.forall_mem_map.mpr (List.forall_mem_flatMap.mpr fun d hd => (hmembers d hd).fields)
    · exact List.forall_mem_flatMap.mpr
        (List.forall_mem_flatMap.mpr fun d hd => (hmembers d hd).methods)
  · exact List.forall_mem_flatMap.mpr fun d hd => (hmembers d hd).items

omit nested in
theorem plain_forwardRecord {p : PathExpr} (h : PathExpr.Plain p) (kind : RecordKind) :
    Defined.Plain { body := .inl (.forward p.last.name kind), path := some p } := by
  have hpath : ∀ q ∈ some p, PathExpr.Plain q := forall_mem_some.mpr h
  exact ⟨TypeExpr.plain_record.mpr ⟨by simp [RecordDecl.types, RecordDecl.forward],
    by simp [RecordDecl.forward]⟩, plain_last hpath, by simp, hpath⟩

theorem gives_record {specs : Specifiers} (plain : specs.Plain) :
    (record P specs).Gives c s Specifiers.Plain := by
  refine gives_pass fun first t => proceeds_skipAttributes.then fun _ u => ?_
  refine gives_here fun start => (gives_tagName nested).bind fun path v hpath => ?_
  refine (proceeds_isBeforeName path).then fun isMacro w => ?_
  extract_lets -underBinder rest
  have last (w : Cursor) : (rest ()).Gives c w Specifiers.Plain := by
    refine gives_isNextWord fun final => ?_
    extract_lets -underBinder heading
    have body (w : Cursor) : (heading ()).Gives c w Specifiers.Plain := by
      refine proceeds_take.then fun colon x => ?_
      extract_lets -underBinder define
      have named (bs : List (BaseSpec PathExpr)) (y : Cursor)
          (hbs : ∀ b ∈ bs, PathExpr.Plain b.name) : (define bs).Gives c y Specifiers.Plain := by
        refine gives_isNext fun brace => ?_
        split
        · refine (gives_recordBody nested _ _).bind fun members z hmembers => gives_pure ?_
          have defined := plain_recordDefined hpath hmembers hbs
          exact ⟨plain.base, forall_mem_some.mpr (defined _), plain.forward⟩
        · split
          · exact gives_failHere
          · rename_i p
            have base (kind : NamedKind) : (TypeExpr.elaborated kind p).Plain :=
              TypeExpr.plain_elaborated.mpr (hpath p rfl)
            have forward := plain_forwardRecord (hpath p rfl)
            exact gives_pure
              ⟨forall_mem_some.mpr (base _), plain.defined, forall_mem_some.mpr (forward _)⟩
      split
      · exact (gives_bases nested _).bind fun bs y hbs => named bs y hbs
      · exact named [] x (by simp)
    split
    · exact gives_pass fun _ => body
    · exact body w
  split
  · exact gives_goTo start (gives_unknownMacro.bind fun _ _ => False.elim)
  · exact last w

/-- An enum has no names within it but those of its underlying type. -/
theorem gives_enum {specs : Specifiers} (plain : specs.Plain) :
    (enum P specs).Gives c s Specifiers.Plain := by
  refine proceeds_consumeKw.then fun _ t => proceeds_takeKw.then fun isClass u => ?_
  extract_lets rest
  have last (isScoped : Bool) (v : Cursor) : (rest isScoped).Gives c v Specifiers.Plain := by
    refine proceeds_skipAttributes.then fun _ w => ?_
    refine (gives_tagName nested).bind fun path x hpath => proceeds_take.then fun colon y => ?_
    extract_lets -underBinder define
    have named (underlying : TypeExpr) (z : Cursor) (hty : underlying.Plain) :
        (define underlying).Gives c z Specifiers.Plain := by
      have body (members : List Enumerator) (complete : Bool) : Defined.Plain {
          body := .inr ⟨path.map (·.last.name), isScoped, underlying, members, complete, false⟩
          path } := by
        exact ⟨TypeExpr.plain_enum.mpr hty, plain_last hpath, by simp, hpath⟩
      refine gives_isNext fun brace => ?_
      split
      · refine proceeds_enumerators.then fun members _ => gives_pure ?_
        exact ⟨plain.base, forall_mem_some.mpr (body members true), plain.forward⟩
      · split
        · exact gives_failHere
        · rename_i p
          have base : (TypeExpr.elaborated .enum p).Plain :=
            TypeExpr.plain_elaborated.mpr (hpath p rfl)
          exact gives_pure
            ⟨forall_mem_some.mpr base, plain.defined, forall_mem_some.mpr (body [] false)⟩
    split
    · exact (nested.type _ _).bind fun ty z hty => named ty z hty
    · exact named _ y TypeExpr.plain_primitive
  split
  · exact last true u
  · exact proceeds_takeKw.then last

/-! ### Specifiers -/

theorem gives_typeName (recordName : Option String) {specs : Specifiers} (plain : specs.Plain) :
    (typeName P recordName specs).Gives c s fun r => r.1.Plain := by
  refine gives_here fun start => gives_peek fun t _ _ => gives_nth fun after => ?_
  extract_lets rest
  have named (u : Cursor) : (rest ()).Gives c u fun r => r.1.Plain := by
    refine (gives_namePath nested).bind fun path t hpath => gives_isNext fun paren => ?_
    split
    · exact gives_goTo start (gives_pure plain)
    · refine proceeds_looksLikeMacro.then fun isMacro v => ?_
      extract_lets done
      have base := TypeExpr.plain_path.mpr hpath
      have last (w : Cursor) : (done ()).Gives c w fun r => r.1.Plain :=
        gives_pure ⟨forall_mem_some.mpr base, plain.defined, plain.forward⟩
      split
      · exact gives_goTo start (gives_unknownMacro.bind fun _ _ => False.elim)
      · exact last v
  split
  · split
    · exact gives_pure plain
    · exact gives_unknownMacro.bind fun _ _ => False.elim
  · exact named s

theorem gives_specifierStep (recordName : Option String) {specs : Specifiers}
    (plain : specs.Plain) :
    (specifierStep P recordName specs).Gives c s fun r => r.1.Plain := by
  refine proceeds_skipAttributes.then fun _ t => gives_peek fun next _ _ => ?_
  extract_lets -underBinder passed
  have passes (u : Cursor) (specs' : Specifiers) (plain : specs'.Plain) :
      (passed specs').Gives c u fun r => r.1.Plain :=
    gives_pass fun _ _ => gives_pure plain
  have stays (u : Cursor) :
      (pure (specs, false) : Parser _).Gives c u fun r => r.1.Plain := gives_pure plain
  -- A keyword leaves alone what has names in it.
  have same (specs' : Specifiers) (base : specs'.base = specs.base)
      (defined : specs'.defined = specs.defined) (forward : specs'.forward = specs.forward) :
      specs'.Plain :=
    ⟨base ▸ plain.base, defined ▸ plain.defined, forward ▸ plain.forward⟩
  split
  all_goals try exact passes t _ (same _ rfl rfl rfl)
  · -- `extern`
    refine gives_nth fun after => ?_
    extract_lets rest
    split
    · exact gives_pass fun _ u => passes u _ (same _ rfl rfl rfl)
    · exact passes t _ (same _ rfl rfl rfl)
  iterate 3
    · -- A record
      split
      · exact stays t
      · exact (gives_record nested plain).bind fun _ _ plain => gives_pure plain
  · -- `enum`
    split
    · exact stays t
    · exact (gives_enum nested plain).bind fun _ _ plain => gives_pure plain
  · -- `typename`
    split
    · exact stays t
    · refine gives_pass fun _ u => (gives_namePath nested).bind fun path v hpath => ?_
      have base := TypeExpr.plain_dependent.mpr hpath
      exact gives_pure ⟨forall_mem_some.mpr base, plain.defined, plain.forward⟩
  · -- Any other keyword
    split
    · exact passes t _ (same _ rfl rfl rfl)
    · exact stays t
  · -- An identifier
    split
    · exact passes t _ plain
    · split
      · exact stays t
      · exact gives_typeName nested recordName plain
  · split
    · exact stays t
    · exact gives_typeName nested recordName plain
  · exact stays t

theorem gives_specifiers (recordName : Option String) :
    (specifiers P recordName).Gives c s Specifiers.Plain :=
  gives_loop (fun _ _ plain => gives_specifierStep nested recordName plain)
    Specifiers.plain_default

end Parts

end HeaderDecl.Grammar
