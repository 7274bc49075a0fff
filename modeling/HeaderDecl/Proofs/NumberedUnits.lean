import HeaderDecl.Proofs.MemberAccess
import HeaderDecl.Proofs.NumberedFields
import HeaderDecl.Proofs.QualifiedDefinitions

/-!
The fields of all records of a unit are numbered. The body of a record counts its fields from none on, one
member after another. Nesting starts with nothing and each level is read with the parsers of the one below
it, so that one step over the grammar carries to any depth.
-/

namespace HeaderDecl

namespace Grammar

open HeaderDecl.Grammar.Parser

/-- Whether what may nest gives records with numbered fields. The fields of a member go on from those
in front of it. -/
structure Nested.Numbers (P : Nested) : Prop where
  type : P.type.Always TypeExpr.Numbered
  specifiers : P.specifiers.Always Specifiers.Numbered
  declarator : P.declarator.Always Declarator.Numbered
  templateParams : P.templateParams.Always TemplateParam.AllNumbered
  member : ∀ m, (P.member m).Always (Declared.Numbered m.fieldCount)

/-- Pointers and references bring no records. -/
theorem numbered_pointerOps : pointerOps.Always fun r => ∀ op ∈ r.1, op.Numbered := by
  have single (op : TypeOp) (h : op.Numbered) (more : Bool) :
      (pure ([some op], more) : Parser (List (Option TypeOp) × Bool)).Always
        fun r => ∀ piece ∈ r.1, ∀ op ∈ piece, op.Numbered :=
    always_pure (List.forall_mem_singleton.mpr (forall_mem_some.mpr h))
  refine (always_collect (fun piece => ∀ op ∈ piece, op.Numbered) ?_).bind
    fun pieces numbered => always_pure fun op hop => ?_
  · refine always_bind fun _ => always_bind fun star => ?_
    refine always_ite (always_bind fun q => single (.pointer q) trivial _) ?_
    refine always_bind fun amp => always_ite (single .reference trivial _) ?_
    refine always_bind fun ampAmp => always_ite (single .rvalueReference trivial _) ?_
    refine always_bind fun ellipsis => ?_
    refine always_ite (always_pure (List.forall_mem_singleton.mpr forall_mem_none)) ?_
    exact always_bind fun next => always_ite (always_bind fun _ => always_none) always_none
  · obtain ⟨piece, hpiece, found⟩ := List.mem_filterMap.mp hop
    exact numbered piece hpiece op found

theorem numbered_requireType {specs : Specifiers} (numbered : specs.Numbered) :
    (requireType specs).Always TypeExpr.Numbered := by
  unfold requireType
  split
  · exact always_pure (numbered.ty _ ‹_›)
  · exact always_failHere

section Parts

variable {P : Nested} (nested : P.Numbers)

include nested

/-! ### Names -/

theorem numbered_typeArg : (typeArg P).Always TypeExpr.Numbered := by
  refine nested.type.bind fun ty numbered => always_bind fun next => ?_
  exact always_ite (always_pure numbered) always_failHere

theorem numbered_templateArg : (templateArg P).Always fun a => ∀ t ∈ a.types, t.Numbered := by
  refine always_bind fun next => ?_
  extract_lets rest
  have last (ty : Option TypeExpr) (numbered : ∀ t ∈ ty, t.Numbered) :
      (rest ty).Always fun a => ∀ t ∈ a.types, t.Numbered := by
    unfold rest
    split
    · rename_i ty
      exact always_pure (List.forall_mem_singleton.mpr (numbered ty rfl))
    · refine always_bind fun ts => ?_
      split
      · exact always_failHere
      · exact always_pure (List.forall_mem_nil _)
  split
  · have arg : (typeArg P).Always fun ty => ∀ t ∈ some ty, t.Numbered :=
      (numbered_typeArg nested).mono fun ty numbered => forall_mem_some.mpr numbered
    exact (always_speculate arg forall_mem_none).bind last
  · exact last none forall_mem_none

theorem numbered_templateArgs :
    (templateArgs P).Always fun args => ∀ a ∈ args, ∀ t ∈ a.types, t.Numbered := by
  have element : (do
      let a ← templateArg P
      let _ ← take .ellipsis
      return a).Always fun a => ∀ t ∈ a.types, t.Numbered :=
    (numbered_templateArg nested).bind fun a numbered => always_bind fun _ => always_pure numbered
  refine always_bind fun _ => (always_commaSeparated element).bind fun args numbered => ?_
  exact always_bind fun _ => always_pure numbered

theorem numbered_nameSegment :
    (nameSegment P).Always fun s => ∀ a ∈ s.args.getD [], ∀ t ∈ a.types, t.Numbered := by
  refine always_bind fun _ => always_bind fun name => always_bind fun less => ?_
  extract_lets rest
  split
  · exact (numbered_templateArgs nested).map_bind fun args numbered => always_pure numbered
  · exact always_pure (List.forall_mem_nil _)

theorem numbered_namePath : (namePath P).Always PathExpr.Numbered := by
  refine always_bind fun absolute => (numbered_nameSegment nested).bind fun first numbered => ?_
  refine (always_collect (fun s => ∀ a ∈ s.args.getD [], ∀ t ∈ a.types, t.Numbered) ?_).bind
    fun rest later => always_pure ?_
  · refine always_bind fun more => always_ite ?_ always_none
    refine always_bind fun _ => (numbered_nameSegment nested).bind fun s numbered => ?_
    exact always_pure (List.forall_mem_singleton.mpr numbered)
  · -- The last segment is taken from the others and put behind them again.
    have all := List.forall_mem_cons.mpr ⟨numbered, later⟩
    rw [PathExpr.Numbered, PathExpr.each_iff]
    split
    · simpa [NamePath.segments] using numbered
    · rename_i last found
      have whole : (first :: rest.dropLast) ++ [last] = first :: rest := by
        rw [List.cons_append, List.dropLast_append_getLast? last found]
      rw [NamePath.segments, whole]
      exact all

theorem numbered_tagName : (tagName P).Always fun path => ∀ p ∈ path, PathExpr.Numbered p := by
  refine always_bind fun t => always_ite ?_ (always_pure forall_mem_none)
  exact ((numbered_namePath nested).mono fun path numbered => forall_mem_some.mpr numbered).map

/-! ### Records and enums -/

theorem numbered_base (kind : RecordKind) :
    (Grammar.base P kind).Always fun b => PathExpr.Numbered b.name := by
  refine always_bind fun before => always_bind fun next => ?_
  extract_lets access rest
  have last : (rest ()).Always fun b => PathExpr.Numbered b.name :=
    always_bind fun after => (numbered_namePath nested).bind fun name numbered =>
      always_bind fun _ => always_pure numbered
  split
  · exact always_bind fun _ => last
  · exact last

theorem numbered_bases (kind : RecordKind) :
    (bases P kind).Always fun bs => ∀ b ∈ bs, PathExpr.Numbered b.name := by
  refine always_collect _ ((numbered_base nested kind).bind fun b numbered => ?_)
  exact always_bind fun more => always_pure (List.forall_mem_singleton.mpr numbered)

/-- Whether some members in a row, with a number of fields in front of them, have numbered fields. -/
structure NumberedMembers (n : Nat) (members : List Declared) : Prop where
  ordinals : Field.NumberedFrom n (members.flatMap Declared.fields)
  items : ∀ d ∈ members, ∀ i ∈ d.items, i.Numbered
  fields : ∀ d ∈ members, ∀ f ∈ d.fields, f.ty.Numbered
  methods : ∀ d ∈ members, ∀ f ∈ d.methods, ∀ t ∈ f.types, t.Numbered

omit nested in
theorem numberedMembers_nil {n : Nat} : NumberedMembers n [] :=
  ⟨rfl, List.forall_mem_nil _, List.forall_mem_nil _, List.forall_mem_nil _⟩

omit nested in
theorem NumberedMembers.cons {n : Nat} {d : Declared} {members : List Declared} (hd : d.Numbered n)
    (later : NumberedMembers (n + d.fields.length) members) : NumberedMembers n (d :: members) :=
  ⟨hd.ordinals.append later.ordinals, List.forall_mem_cons.mpr ⟨hd.items, later.items⟩,
    List.forall_mem_cons.mpr ⟨hd.fields, later.fields⟩,
    List.forall_mem_cons.mpr ⟨hd.methods, later.methods⟩⟩

/-- A member counts on from the fields that were counted in front of it. -/
theorem numbered_memberStep (name : Option String) (m : MemberState) :
    (memberStep P name m).Always fun r =>
      (r.1 = [] ∧ r.2.1.fieldCount = m.fieldCount) ∨
        ∃ d, r.1 = [d] ∧ d.Numbered m.fieldCount ∧ r.2.1.fieldCount = m.fieldCount + d.fields.length := by
  rintro c s ⟨ds, m', more⟩ t run
  cases memberStep_cases run with
  | ends => exact .inl ⟨rfl, rfl⟩
  | label => exact .inl ⟨rfl, rfl⟩
  | semicolon => exact .inl ⟨rfl, rfl⟩
  | member _ _ read =>
    have numbered := always_recovering (nested.member _) (fun e => Declared.numbered_default) c s _ t read
    exact .inr ⟨_, rfl, numbered, rfl⟩

theorem numbered_members (name : Option String) (m : MemberState) :
    (collectFrom (memberStep P name) m).Always (NumberedMembers m.fieldCount) := by
  refine always_collectFrom (G := fun m : MemberState => NumberedMembers m.fieldCount)
    (fun m => ?_) fun m => ?_
  · refine (numbered_memberStep nested name m).mono ?_
    rintro ⟨_, m', more⟩ (⟨rfl, -⟩ | ⟨d, rfl, numbered, -⟩) -
    · exact numberedMembers_nil
    · exact .cons numbered numberedMembers_nil
  · refine (numbered_memberStep nested name m).mono ?_
    rintro ⟨_, m', more⟩ (⟨rfl, same⟩ | ⟨d, rfl, numbered, same⟩) - members later
    · exact same ▸ later
    · exact .cons numbered (same ▸ later)

/-- The fields of a record are counted from none on. -/
theorem numbered_recordBody (name : Option String) (kind : RecordKind) :
    (recordBody P name kind).Always (NumberedMembers 0) := by
  refine always_bind fun _ => ?_
  refine (always_within (numbered_members nested name _)).bind fun members numbered => ?_
  exact always_bind fun _ => always_pure numbered

omit nested in
/-- A record is numbered if its name, its members and its base classes are. -/
theorem numbered_recordDefined {path : Option PathExpr} (hpath : ∀ p ∈ path, PathExpr.Numbered p)
    {members : List Declared} (hmembers : NumberedMembers 0 members)
    {bases : List (BaseSpec PathExpr)} (hbases : ∀ b ∈ bases, PathExpr.Numbered b.name)
    (kind : RecordKind) : Defined.Numbered {
      body := .inl ⟨path.map (·.last.name), kind, members.flatMap Declared.fields,
        members.flatMap Declared.methods, bases, true, false⟩
      nested := members.flatMap Declared.items
      path } := by
  refine ⟨TypeExpr.each_record.mpr ⟨?_, hbases, ?_⟩,
    List.forall_mem_flatMap.mpr hmembers.items, hpath⟩
  · exact RecordDecl.numbered_iff.mpr hmembers.ordinals
  · refine List.forall_mem_append.mpr ⟨?_, ?_⟩
    · exact List.forall_mem_map.mpr (List.forall_mem_flatMap.mpr hmembers.fields)
    · exact List.forall_mem_flatMap.mpr (List.forall_mem_flatMap.mpr hmembers.methods)

omit nested in
theorem numbered_forwardRecord {p : PathExpr} (h : PathExpr.Numbered p) (kind : RecordKind) :
    Defined.Numbered { body := .inl (.forward p.last.name kind), path := some p } := by
  refine ⟨TypeExpr.each_record.mpr ⟨?_, List.forall_mem_nil _, List.forall_mem_nil _⟩,
    List.forall_mem_nil _, forall_mem_some.mpr h⟩
  exact RecordDecl.numbered_iff.mpr Field.numberedFrom_nil

theorem numbered_recordRest {specs : Specifiers} (numbered : specs.Numbered) (kind : RecordKind)
    {path : Option PathExpr} (hpath : ∀ p ∈ path, PathExpr.Numbered p)
    {bases : List (BaseSpec PathExpr)} (hbases : ∀ b ∈ bases, PathExpr.Numbered b.name) :
    (recordRest P specs kind path bases).Always Specifiers.Numbered := by
  refine always_bind fun brace => ?_
  split
  · refine (numbered_recordBody nested _ _).bind fun members hmembers => always_pure ?_
    have defined := numbered_recordDefined hpath hmembers hbases kind
    exact ⟨numbered.base, forall_mem_some.mpr defined, numbered.forward⟩
  · cases path with
    | none => exact always_failHere
    | some p =>
      have hp := hpath p rfl
      have base : (TypeExpr.elaborated kind.toNamed p).Numbered := TypeExpr.each_elaborated.mpr hp
      exact always_pure ⟨forall_mem_some.mpr base, numbered.defined,
        forall_mem_some.mpr (numbered_forwardRecord hp kind)⟩

theorem numbered_record {specs : Specifiers} (numbered : specs.Numbered) :
    (record P specs).Always Specifiers.Numbered := by
  rw [record_eq]
  refine always_bind fun first => always_bind fun _ => always_bind fun start => ?_
  refine (numbered_tagName nested).bind fun path hpath => always_bind fun isMacro => ?_
  extract_lets -underBinder rest
  have last : (rest ()).Always Specifiers.Numbered := by
    refine always_bind fun final => ?_
    extract_lets -underBinder heading
    have body : (heading ()).Always Specifiers.Numbered := by
      refine always_bind fun colon => ?_
      extract_lets -underBinder define
      split
      · refine (numbered_bases nested _).bind fun bs hbs => ?_
        exact numbered_recordRest nested numbered _ hpath hbs
      · exact numbered_recordRest nested numbered _ hpath (List.forall_mem_nil _)
    split
    · exact always_bind fun _ => body
    · exact body
  split
  · exact always_bind fun _ => (always_unknownMacro (Q := fun _ => False)).bind fun _ => False.elim
  · exact last

/-- An enum has no records within it but those of its underlying type. -/
theorem numbered_enum {specs : Specifiers} (numbered : specs.Numbered) :
    (enum P specs).Always Specifiers.Numbered := by
  refine always_bind fun _ => always_bind fun isClass => ?_
  extract_lets rest
  have last (isScoped : Bool) : (rest isScoped).Always Specifiers.Numbered := by
    refine always_bind fun _ => (numbered_tagName nested).bind fun path hpath => always_bind fun colon => ?_
    extract_lets -underBinder define
    have named (underlying : TypeExpr) (hty : underlying.Numbered) :
        (define underlying).Always Specifiers.Numbered := by
      have body (members : List Enumerator) (complete : Bool) : Defined.Numbered {
          body := .inr ⟨path.map (·.last.name), isScoped, underlying, members, complete, false⟩
          path } :=
        ⟨TypeExpr.each_enum.mpr hty, List.forall_mem_nil _, hpath⟩
      refine always_bind fun brace => ?_
      split
      · refine always_bind fun members => always_pure ?_
        exact ⟨numbered.base, forall_mem_some.mpr (body members true), numbered.forward⟩
      · split
        · exact always_failHere
        · rename_i p
          have base : (TypeExpr.elaborated .enum p).Numbered :=
            TypeExpr.each_elaborated.mpr (hpath p rfl)
          exact always_pure
            ⟨forall_mem_some.mpr base, numbered.defined, forall_mem_some.mpr (body [] false)⟩
    split
    · exact nested.type.bind named
    · exact named _ TypeExpr.each_primitive
  split
  · exact last true
  · exact always_bind last

/-! ### Specifiers -/

theorem numbered_typeName (recordName : Option String) {specs : Specifiers}
    (numbered : specs.Numbered) :
    (typeName P recordName specs).Always fun r => r.1.Numbered := by
  have macros {f : Unit → Parser (Specifiers × Bool)} :
      (unknownMacro >>= f).Always fun r => r.1.Numbered :=
    (always_unknownMacro (Q := fun _ => False)).bind fun _ => False.elim
  have stops : (pure (specs, false) : Parser (Specifiers × Bool)).Always fun r => r.1.Numbered :=
    always_pure numbered
  refine always_bind fun start => always_bind fun t => always_bind fun after => ?_
  extract_lets rest
  have named : (rest ()).Always fun r => r.1.Numbered := by
    refine (numbered_namePath nested).bind fun path hpath => always_bind fun paren => ?_
    refine always_ite (always_bind fun _ => stops) (always_bind fun isMacro => ?_)
    have base : (TypeExpr.path path).Numbered := TypeExpr.each_path.mpr hpath
    have whole : Specifiers.Numbered { specs with base := some (.path path) } :=
      ⟨forall_mem_some.mpr base, numbered.defined, numbered.forward⟩
    exact always_ite (always_bind fun _ => macros) (always_pure whole)
  exact always_ite (always_ite stops macros) named

theorem numbered_specifierStep (recordName : Option String) {specs : Specifiers}
    (numbered : specs.Numbered) :
    (specifierStep P recordName specs).Always fun r => r.1.Numbered := by
  refine always_bind fun _ => always_bind fun next => ?_
  extract_lets -underBinder passed
  have passes (specs' : Specifiers) (h : specs'.Numbered) :
      (passed specs').Always fun r => r.1.Numbered :=
    always_bind fun _ => always_pure h
  have stays : (pure (specs, false) : Parser _).Always fun r => r.1.Numbered := always_pure numbered
  -- A keyword leaves alone what may have records in it.
  have same (specs' : Specifiers) (base : specs'.base = specs.base)
      (defined : specs'.defined = specs.defined) (forward : specs'.forward = specs.forward) :
      specs'.Numbered :=
    ⟨base ▸ numbered.base, defined ▸ numbered.defined, forward ▸ numbered.forward⟩
  split
  all_goals try exact passes _ (same _ rfl rfl rfl)
  · -- `extern`
    refine always_bind fun after => ?_
    exact always_ite (always_bind fun _ => passes _ (same _ rfl rfl rfl)) (passes _ (same _ rfl rfl rfl))
  iterate 3
    · -- A record
      exact always_ite stays ((numbered_record nested numbered).bind fun _ h => always_pure h)
  · -- `enum`
    exact always_ite stays ((numbered_enum nested numbered).bind fun _ h => always_pure h)
  · -- `typename`
    refine always_ite stays (always_bind fun _ => (numbered_namePath nested).bind fun path hpath => ?_)
    have base : (TypeExpr.dependent path).Numbered := TypeExpr.each_dependent.mpr hpath
    exact always_pure ⟨forall_mem_some.mpr base, numbered.defined, numbered.forward⟩
  · -- Any other keyword
    exact always_ite (passes _ (same _ rfl rfl rfl)) stays
  · -- An identifier
    exact always_ite (passes _ numbered) (always_ite stays (numbered_typeName nested recordName numbered))
  · exact always_ite stays (numbered_typeName nested recordName numbered)
  · exact stays

theorem numbered_specifiers (recordName : Option String) :
    (specifiers P recordName).Always Specifiers.Numbered :=
  always_loop (fun _ numbered => numbered_specifierStep nested recordName numbered)
    Specifiers.numbered_default

/-! ### Declarators -/

theorem numbered_conversionTarget : (conversionTarget P).Always TypeExpr.Numbered := by
  refine nested.specifiers.bind fun specs numbered => ?_
  refine (numbered_requireType numbered).bind fun ty hty => ?_
  exact numbered_pointerOps.bind fun ops hops => always_pure (numbered_applyOps hops hty)

theorem numbered_operatorName : (operatorName P).Always DeclName.Numbered := by
  refine always_bind fun next => ?_
  refine always_ite (always_bind fun _ => always_bind fun _ => always_pure trivial) ?_
  refine always_ite (always_bind fun _ => always_bind fun _ => always_pure trivial) ?_
  refine always_ite (always_bind fun _ => always_bind fun open_ => always_bind fun close => ?_) ?_
  · refine always_ite ?_ (always_pure trivial)
    exact always_bind fun _ => always_bind fun _ => always_pure trivial
  · refine always_ite (always_bind fun _ => always_bind fun text => always_pure trivial) ?_
    exact (numbered_conversionTarget nested).bind fun ty numbered => always_pure numbered

theorem numbered_declaratorName : (declaratorName P).Always fun r => r.1.Numbered := by
  refine always_bind fun absolute => ?_
  refine (always_loop (I := fun r => ∀ n ∈ r.1, n.Numbered) (fun r _ => ?_) forall_mem_none).bind
    fun r numbered => ?_
  · have plain (name : DeclName) (h : name.Numbered) (qualified more : Bool) :
        (pure ((some name, qualified), more) : Parser ((Option DeclName × Bool) × Bool)).Always
          fun r => ∀ n ∈ r.1.1, n.Numbered :=
      always_pure (forall_mem_some.mpr h)
    refine always_bind fun next => always_ite ?_ (always_ite ?_ (always_ite ?_ always_failHere))
    · refine always_bind fun _ => (numbered_operatorName nested).bind fun name numbered => ?_
      exact plain name numbered _ _
    · exact always_bind fun _ => always_bind fun name => plain (.destructor name.text) trivial _ _
    · exact always_bind fun r => plain (.plain r.1) trivial _ _
  · rcases r with ⟨_ | name, qualified⟩
    · exact always_failHere
    · exact always_pure (numbered name rfl)

theorem numbered_parameter : (parameter P).Always fun p => p.ty.Numbered := by
  refine nested.specifiers.bind fun specs numbered => ?_
  refine (numbered_requireType numbered).bind fun ty hty => ?_
  refine nested.declarator.bind fun d hd => always_bind fun eq => ?_
  extract_lets rest
  have last : (rest ()).Always fun p => p.ty.Numbered := always_pure (numbered_applyOps hd.ops hty)
  split
  · exact always_bind fun _ => last
  · exact last

theorem numbered_parameters : (parameters P).Always FunctionSuffix.Numbered := by
  refine always_bind fun void => always_bind fun after => ?_
  extract_lets rest
  have last : (rest ()).Always FunctionSuffix.Numbered := by
    refine (always_collect (fun piece => ∀ p ∈ piece, p.ty.Numbered) ?_).bind
      fun pieces numbered => always_bind fun _ => always_pure ⟨fun p hp => ?_, forall_mem_none⟩
    · refine always_bind fun atEnd => always_ite always_none (always_bind fun dots => ?_)
      refine always_ite (always_pure (List.forall_mem_singleton.mpr forall_mem_none)) ?_
      refine (numbered_parameter nested).bind fun p numbered => always_bind fun comma => ?_
      have given : ∀ q ∈ some p, q.ty.Numbered := forall_mem_some.mpr numbered
      exact always_pure (List.forall_mem_singleton.mpr given)
    · obtain ⟨piece, hpiece, found⟩ := List.mem_filterMap.mp hp
      exact numbered piece hpiece p found
  split
  · exact always_bind fun _ => last
  · exact last

theorem numbered_functionTail {suffix : FunctionSuffix} (numbered : suffix.Numbered) :
    (functionTail P suffix).Always FunctionSuffix.Numbered := by
  refine always_loop (fun suffix numbered => ?_) numbered
  refine always_bind fun _ => always_bind fun next => ?_
  refine always_ite (always_bind fun _ => always_pure ⟨numbered.params, numbered.trailing⟩) ?_
  refine always_ite (always_bind fun _ => always_pure numbered) (always_ite ?_ (always_ite ?_ ?_))
  · refine always_bind fun _ => always_bind fun paren => ?_
    extract_lets rest
    split
    · exact always_bind fun _ => always_pure numbered
    · exact always_pure numbered
  · refine always_bind fun _ => nested.type.bind fun ty hty => ?_
    exact always_pure ⟨numbered.params, forall_mem_some.mpr hty⟩
  · exact always_pure numbered

theorem numbered_suffixes : (suffixes P).Always fun ops => ∀ op ∈ ops, op.Numbered := by
  refine always_collect _ (always_bind fun _ => always_bind fun bracket => always_ite ?_ ?_)
  · refine always_bind fun close => ?_
    extract_lets rest
    have last (size : Option Value) : (rest size).Always fun r => ∀ op ∈ r.1, op.Numbered :=
      always_bind fun _ => always_pure (List.forall_mem_singleton.mpr trivial)
    split
    · exact last none
    · exact always_bind last
  · refine always_bind fun paren => always_ite ?_ always_none
    refine (numbered_parameters nested).bind fun params numbered => ?_
    refine (numbered_functionTail nested numbered).bind fun suffix hsuffix => ?_
    exact always_pure (List.forall_mem_singleton.mpr hsuffix)

theorem numbered_declaratorCore (first : Token) (pack : Bool) :
    (declaratorCore P first pack).Always Declarator.Numbered := by
  refine always_bind fun next => always_bind fun grouping => always_ite ?_ (always_ite ?_ ?_)
  · exact always_bind fun _ => nested.declarator.bind fun d hd => always_bind fun _ => always_pure hd
  · refine (numbered_declaratorName nested).bind fun name numbered => ?_
    exact always_pure ⟨forall_mem_some.mpr numbered, List.forall_mem_nil _⟩
  · exact always_pure ⟨forall_mem_none, List.forall_mem_nil _⟩

theorem numbered_declarator : (declarator P).Always Declarator.Numbered := by
  refine always_bind fun first => numbered_pointerOps.bind fun r hops => ?_
  refine (numbered_declaratorCore nested first _).bind fun core hcore => ?_
  refine (numbered_suffixes nested).bind fun suffixes hsuffixes => always_pure ⟨hcore.name, ?_⟩
  simp only [List.forall_mem_append, List.mem_reverse]
  exact ⟨⟨hops, hsuffixes⟩, hcore.ops⟩

theorem numbered_typeExpr : (typeExpr P (specifiers P none)).Always TypeExpr.Numbered := by
  refine (numbered_specifiers nested none).bind fun specs numbered => ?_
  refine (numbered_requireType numbered).bind fun ty hty => ?_
  refine (numbered_declarator nested).bind fun d hd => ?_
  have last : (pure (applyOps ty d.ops) : Parser TypeExpr).Always TypeExpr.Numbered :=
    always_pure (numbered_applyOps hd.ops hty)
  exact always_ite (always_bind fun _ => last) last

theorem numbered_templateParam : (templateParam P).Always fun p => ∀ t ∈ p.types, t.Numbered := by
  refine always_bind fun next => always_ite ?_ (always_ite ?_ ?_)
  · refine always_bind fun _ => always_bind fun pack => always_bind fun name => always_bind fun eq => ?_
    extract_lets rest
    have last (ty : Option TypeExpr) (numbered : ∀ t ∈ ty, t.Numbered) :
        (rest ty).Always fun p => ∀ t ∈ p.types, t.Numbered :=
      always_pure fun t ht => numbered t (Option.mem_toList.mp ht)
    split
    · exact nested.type.map_bind fun ty hty => last _ (forall_mem_some.mpr hty)
    · exact last none forall_mem_none
  · refine always_bind fun _ => always_bind fun _ => always_bind fun _ => always_bind fun pack => ?_
    exact always_bind fun name => always_bind fun _ => always_pure (List.forall_mem_nil _)
  · refine nested.specifiers.bind fun specs numbered => ?_
    refine (numbered_requireType numbered).bind fun ty hty => ?_
    refine nested.declarator.bind fun d hd => always_bind fun _ => ?_
    exact always_pure (List.forall_mem_singleton.mpr (numbered_applyOps hd.ops hty))

theorem numbered_templateParams : (templateParams P).Always TemplateParam.AllNumbered := by
  refine always_bind fun _ => ?_
  refine (always_commaSeparated (numbered_templateParam nested)).bind fun params numbered => ?_
  exact always_bind fun _ => always_pure numbered

/-! ### Declarations -/

omit nested in
theorem numbered_skipped {n : Nat} : skipped.Always (Declared.Numbered n) :=
  always_bind fun _ => always_pure Declared.numbered_default

omit nested in
theorem numbered_unmodeled {n : Nat} {start : Cursor} {what : String} :
    (unmodeled start what).Always (Declared.Numbered n) := by
  refine always_bind fun first => always_bind fun whole => ?_
  dsimp only
  split
  · exact always_bind fun _ => always_pure Declared.numbered_default
  · exact always_pure Declared.numbered_default

theorem numbered_declarators : (declarators P).Always fun ds => ∀ d ∈ ds, d.1.Numbered := by
  refine always_collect _ ((numbered_declarator nested).bind fun d numbered => always_bind fun tail => ?_)
  have single (more : Bool) : (pure ([(d, tail)], more) : Parser (List (Declarator × Tail) × Bool)).Always
      fun r => ∀ d ∈ r.1, d.1.Numbered :=
    always_pure (List.forall_mem_singleton.mpr numbered)
  refine always_ite (always_bind fun _ => single _) (always_bind fun comma => ?_)
  exact always_ite (single _) (always_bind fun _ => single _)

theorem numbered_declaration (member : Option MemberContext)
    {template : Option (List (TemplateParam TypeExpr))}
    (params : ∀ ps ∈ template, TemplateParam.AllNumbered ps) (origin : Origin) :
    (declaration P member template origin).Always (Declared.Numbered (fieldsBefore member)) := by
  refine (numbered_specifiers nested _).bind fun specs numbered => ?_
  refine always_ite numbered_skipped (always_bind fun alone => always_ite ?_ ?_)
  · exact always_pure (numbered_declareAlone numbered member params origin)
  · refine (numbered_declarators nested).bind fun ds hds => always_bind fun scope => ?_
    exact always_bind fun _ => always_pure (numbered_declare numbered member params origin scope hds)

theorem numbered_template (member : Option MemberContext) :
    (template P member).Always (Declared.Numbered (fieldsBefore member)) := by
  refine always_bind fun start => always_bind fun first => always_bind fun _ => always_bind fun less => ?_
  refine always_ite ?_ numbered_skipped
  refine (numbered_templateParams nested).bind fun params numbered => always_bind fun next => ?_
  refine always_ite numbered_skipped (always_ite numbered_unmodeled (always_ite numbered_unmodeled ?_))
  exact numbered_declaration nested member (forall_mem_some.mpr numbered) _

theorem numbered_aliasDeclaration {n : Nat} : (aliasDeclaration P).Always (Declared.Numbered n) := by
  refine always_bind fun first => always_bind fun _ => always_bind fun assigns => ?_
  refine always_ite ?_ numbered_skipped
  refine always_bind fun name => always_bind fun _ => (numbered_typeExpr nested).bind fun ty hty => ?_
  refine always_bind fun _ => always_pure (Declared.numbered_ofItem ?_)
  exact Decl.each_of_types (List.forall_mem_singleton.mpr hty) rfl rfl

theorem numbered_anyDeclaration (member : Option MemberContext) :
    (anyDeclaration P member).Always (Declared.Numbered (fieldsBefore member)) := by
  refine always_bind fun next => always_ite (numbered_template nested member) ?_
  refine always_ite (numbered_aliasDeclaration nested) (always_ite numbered_skipped ?_)
  exact numbered_declaration nested member forall_mem_none _

theorem Nested.Numbers.step : P.step.Numbers where
  type := numbered_typeExpr nested
  specifiers := numbered_specifiers nested none
  declarator := numbered_declarator nested
  templateParams := numbered_templateParams nested
  member m := numbered_anyDeclaration nested (some m)

end Parts

/-- Nothing is given by nesting that is too deep. -/
theorem numbers_nothing : Nested.nothing.Numbers :=
  ⟨always_stop, always_stop, always_stop, always_stop, fun _ => always_stop⟩

theorem numbers_upTo (n : Nat) : (Nested.upTo n).Numbers := by
  induction n with
  | zero => exact numbers_nothing
  | succ n ih =>
    rw [Nested.upTo, Nested.delayed_eq]
    exact ih.step

/-! ### Items -/

theorem numbered_items {close : List Punct} {item : Parser Declared}
    (each : item.Always (Declared.Numbered 0)) :
    (items close item).Always fun is => ∀ i ∈ is, i.Numbered := by
  refine always_collect _ (always_bind fun atEnd => always_ite always_none ?_)
  refine always_bind fun semicolon => always_ite always_none ?_
  have recovered := always_recovering each fun e => Declared.numbered_default
  exact recovered.bind fun d numbered => always_pure numbered.items

theorem numbered_inNamespaces {origin : Origin} {items : List Item} (inner : ∀ i ∈ items, i.Numbered)
    (names : List String) : (inNamespaces origin items names).Numbered := by
  fun_induction inNamespaces origin items names with
  | case1 => exact Item.each_namespaceItem inner
  | case2 name => exact Item.each_namespaceItem inner
  | case3 name rest _ ih => exact Item.each_namespaceItem (List.forall_mem_singleton.mpr ih)

section Blocks

variable {P : Nested} (nested : P.Numbers) {block : Parser (List Item)}
  (blocks : block.Always fun is => ∀ i ∈ is, i.Numbered)

include blocks

theorem numbered_namespaceBlock (isInline : Bool) :
    (namespaceBlock block isInline).Always (Declared.Numbered 0) := by
  refine always_bind fun first => always_bind fun _ => always_bind fun assigns => ?_
  refine always_ite numbered_skipped (always_bind fun names => always_bind fun _ => always_bind fun _ => ?_)
  refine (always_within blocks).bind fun items inner => always_bind fun _ => always_pure ?_
  exact Declared.numbered_ofItems (List.forall_mem_singleton.mpr (numbered_inNamespaces inner _))

theorem numbered_linkageBlock : (linkageBlock block).Always (Declared.Numbered 0) := by
  refine always_bind fun _ => always_bind fun _ => always_bind fun _ => ?_
  refine blocks.bind fun items inner => always_bind fun closed => ?_
  cases closed
  · exact always_pure (Declared.numbered_ofItems inner)
  · exact always_pure (Declared.numbered_ofItems inner)

include nested

theorem numbered_item : (item P block).Always (Declared.Numbered 0) := by
  refine always_bind fun first => always_bind fun next => ?_
  refine always_ite (numbered_namespaceBlock blocks false) ?_
  refine always_ite (always_bind fun _ => numbered_namespaceBlock blocks true) (always_bind fun brace => ?_)
  exact always_ite (numbered_linkageBlock blocks) (numbered_anyDeclaration nested none)

end Blocks

theorem numbered_block {P : Nested} (nested : P.Numbers) (n : Nat) :
    (block P n).Always fun is => ∀ i ∈ is, i.Numbered := by
  induction n with
  | zero => exact always_stop
  | succ n ih => exact numbered_items (numbered_item nested ih)

theorem numbered_topItems : topItems.Always fun is => ∀ i ∈ is, i.Numbered := by
  refine numbered_items (always_bind fun s => ?_)
  have nested := numbers_upTo s.left
  exact numbered_item nested (numbered_block nested s.left)

end Grammar

open HeaderDecl.Grammar

/-- In all records of a unit, whatever its tokens are, a field has its place as its ordinal. -/
theorem numbered_of_mem_parseUnit (tokens : List Token) : ∀ i ∈ (parseUnit tokens).1, i.Numbered := by
  unfold parseUnit
  rcases splitEnd tokens with ⟨ts, eof⟩
  dsimp only
  rcases done : topItems { eof } (.ofTokens ts) with ⟨reports, reason | ⟨items, t⟩⟩
  · exact List.forall_mem_nil _
  · exact numbered_topItems { eof } (.ofTokens ts) items t (congrArg Outcome.result done)

end HeaderDecl
