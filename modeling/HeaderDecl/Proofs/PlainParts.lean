import HeaderDecl.Proofs.ParserValues
import HeaderDecl.Proofs.PlainItems
import HeaderDecl.Proofs.TotalParsing

/-!
Parts of declarations all of whose names are identifiers, and what is declared from them.
-/

namespace HeaderDecl

open HeaderDecl.Grammar

/-- Whether a segment of a name is an identifier, also within its template arguments. -/
def NameSegment.Plain (s : NameSegment ArgExpr) : Prop :=
  Name.Plain s.name ∧ ∀ a ∈ s.args.getD [], ∀ u ∈ a.types, u.Plain

theorem PathExpr.plain_iff {p : PathExpr} : PathExpr.Plain p ↔ ∀ s ∈ p.segments, s.Plain := by
  simp only [PathExpr.Plain, NamePath.types, NameSegment.Plain, List.mem_flatMap]
  grind

/-- Whether the types of a template's parameters are written with identifiers. -/
def TemplateParam.AllPlain (params : List (TemplateParam TypeExpr)) : Prop :=
  ∀ p ∈ params, ∀ t ∈ p.types, t.Plain

theorem TemplateParam.AllPlain.types {params : List (TemplateParam TypeExpr)}
    (h : AllPlain params) : ∀ t ∈ params.flatMap (·.types), t.Plain :=
  List.forall_mem_flatMap.mpr h

/-- Where there are no template parameters, none of them is not plain. -/
theorem TemplateParam.allPlain_getD {template : Option (List (TemplateParam TypeExpr))}
    (h : ∀ ps ∈ template, TemplateParam.AllPlain ps) : TemplateParam.AllPlain (template.getD []) := by
  cases template with
  | none => exact List.forall_mem_nil _
  | some ps => exact h ps rfl

namespace Grammar

/-! ### Specifiers -/

/-- Whether a definition, and all that stands within it, is written with identifiers. -/
structure Defined.Plain (d : Defined) : Prop where
  type : d.toType.Plain
  name : ∀ n ∈ d.name, Name.Plain n
  nested : ∀ i ∈ d.nested, i.Plain true
  path : ∀ p ∈ d.path, PathExpr.Plain p

structure Specifiers.Plain (s : Specifiers) : Prop where
  base : ∀ t ∈ s.base, t.Plain
  defined : ∀ d ∈ s.defined, d.Plain
  forward : ∀ d ∈ s.forward, d.Plain

theorem Specifiers.plain_default : Specifiers.Plain {} :=
  ⟨forall_mem_none, forall_mem_none, forall_mem_none⟩

theorem Specifiers.Plain.ty {s : Specifiers} (h : s.Plain) : ∀ t ∈ s.ty, t.Plain := by
  intro t ht
  obtain ⟨u, hu, rfl⟩ := Option.map_eq_some_iff.mp ht
  rw [TypeExpr.plain_withQualifiers]
  rcases Option.or_eq_some_iff.mp hu with first | ⟨-, base⟩
  · obtain ⟨q, -, rfl⟩ := Option.map_eq_some_iff.mp first
    exact TypeExpr.plain_primitive
  · exact h.base u base

namespace Defined.Plain

variable {d : Defined}

theorem namedByTypedef (h : d.Plain) {name : String} (plain : Name.Plain name) :
    (d.namedByTypedef name).Plain := by
  obtain ⟨body, nested, path⟩ := d
  cases body with
  | inl r =>
    have own : r.Plain := TypeExpr.plain_record.mp h.type
    exact ⟨TypeExpr.plain_record.mpr own, forall_mem_some.mpr plain, h.nested, h.path⟩
  | inr e =>
    have own : e.underlying.Plain := TypeExpr.plain_enum.mp h.type
    exact ⟨TypeExpr.plain_enum.mpr own, forall_mem_some.mpr plain, h.nested, h.path⟩

theorem named_toDecl (h : d.Plain) (template : Option (List (TemplateParam TypeExpr)))
    (inRecord : Bool) : (d.toDecl template).Named inRecord := by
  obtain ⟨body, nested, path⟩ := d
  unfold Defined.toDecl
  split
  · rename_i same _
    cases same
    exact h.name
  · rename_i same _
    cases same
    split <;> exact h.name
  · rename_i same
    cases same
    exact h.name

/-- The declaration of a definition is written with what the definition is. -/
theorem plain_toDecl (h : d.Plain) {template : Option (List (TemplateParam TypeExpr))}
    (params : ∀ ps ∈ template, TemplateParam.AllPlain ps) : (d.toDecl template).Plain := by
  obtain ⟨body, nested, path⟩ := d
  unfold Defined.toDecl
  split
  · -- A specialization has its arguments from the name it was written with.
    rename_i r args body found
    cases body
    obtain ⟨types, bases⟩ := TypeExpr.plain_record.mp h.type
    obtain ⟨p, hp, last⟩ := Option.bind_eq_some_iff.mp found
    have written : ∀ a ∈ args, ∀ u ∈ a.types, u.Plain := by
      have segment := PathExpr.plain_iff.mp (h.path p hp) p.last (by simp [NamePath.segments])
      simpa [last] using segment.2
    refine ⟨?_, bases⟩
    simp only [Decl.types, List.forall_mem_append]
    exact ⟨(TemplateParam.allPlain_getD params).types, List.forall_mem_flatMap.mpr written, types⟩
  · rename_i r body none
    cases body
    obtain ⟨types, bases⟩ := TypeExpr.plain_record.mp h.type
    split
    · refine ⟨?_, bases⟩
      simp only [Decl.types, List.forall_mem_append]
      exact ⟨(params _ rfl).types, types⟩
    · exact ⟨types, bases⟩
  · rename_i e body
    cases body
    have underlying := TypeExpr.plain_enum.mp h.type
    exact ⟨by simpa [Decl.types] using underlying, by simp [Decl.bases]⟩

end Defined.Plain

/-! ### Declarators -/

/-- Whether a declared name is an identifier, or begins with a word that has no colon. -/
def DeclName.Plain : DeclName → Prop
  | plain name => Name.Plain name
  | destructor name => Name.Plain name
  | operator name => ':' ∉ Name.word name.toList
  | conversion target => target.Plain

structure FunctionSuffix.Plain (s : FunctionSuffix) : Prop where
  params : ∀ p ∈ s.params, p.ty.Plain
  trailing : ∀ t ∈ s.trailing, t.Plain

theorem FunctionSuffix.Plain.toSignature {s : FunctionSuffix} (h : s.Plain) {t : TypeExpr}
    (ht : t.Plain) : ∀ u ∈ (s.toSignature t).types, u.Plain := by
  simp only [Signature.types, FunctionSuffix.toSignature, List.forall_mem_cons,
    List.forall_mem_map]
  refine ⟨?_, h.params⟩
  cases found : s.trailing with
  | none => exact ht
  | some u => exact h.trailing u found

def TypeOp.Plain : TypeOp → Prop
  | function suffix => suffix.Plain
  | _ => True

theorem TypeOp.Plain.apply {op : TypeOp} (h : op.Plain) {t : TypeExpr} (ht : t.Plain) :
    (op.apply t).Plain := by
  cases op with
  | function suffix => exact TypeExpr.plain_function.mpr (FunctionSuffix.Plain.toSignature h ht)
  | _ => simpa [TypeOp.apply] using ht

theorem plain_applyOps {ops : List TypeOp} (h : ∀ op ∈ ops, op.Plain) {t : TypeExpr}
    (ht : t.Plain) : (applyOps t ops).Plain := by
  induction ops generalizing t with
  | nil => exact ht
  | cons op ops ih =>
    exact ih (fun o ho => h o (List.mem_cons_of_mem _ ho)) ((h op List.mem_cons_self).apply ht)

structure Declarator.Plain (d : Declarator) : Prop where
  name : ∀ n ∈ d.name, n.Plain
  ops : ∀ op ∈ d.ops, op.Plain

theorem Declarator.Plain.plainName? {d : Declarator} (h : d.Plain) :
    ∀ n ∈ d.plainName?, Name.Plain n := by
  intro n hn
  unfold Declarator.plainName? at hn
  split at hn
  · rename_i name named
    split at hn
    · cases hn
    · cases hn
      exact h.name _ named
  · cases hn

theorem Declarator.Plain.suffix {d : Declarator} (h : d.Plain) :
    ∀ s ∈ d.functionSuffix?, s.Plain := by
  intro s hs
  unfold Declarator.functionSuffix? at hs
  split at hs
  · rename_i suffix last
    cases hs
    exact h.ops _ (List.mem_of_getLast? last)
  · cases hs

/-! ### What is declared -/

/-- Whether all that is declared is written with identifiers, by declarators of a record or not. -/
structure Declared.Plain (inRecord : Bool) (d : Declared) : Prop where
  items : ∀ i ∈ d.items, i.Plain inRecord
  fields : ∀ f ∈ d.fields, f.ty.Plain
  methods : ∀ f ∈ d.methods, ∀ t ∈ f.types, t.Plain
  failure : ∀ e ∈ d.failure, e.Spelled

namespace Declared

variable {inRecord : Bool} {d e : Declared}

theorem plain_of_empty (items : d.items = []) (fields : d.fields = []) (methods : d.methods = [])
    (failure : ∀ e ∈ d.failure, e.Spelled) : d.Plain inRecord := by
  refine ⟨?_, ?_, ?_, failure⟩
  · simp [items]
  · simp [fields]
  · simp [methods]

theorem plain_default : Declared.Plain inRecord {} :=
  plain_of_empty rfl rfl rfl forall_mem_none

theorem plain_ofFailure (site : Token) (cause : Cause) : (ofFailure site cause).Plain inRecord :=
  plain_of_empty rfl rfl rfl (forall_mem_some.mpr forall_mem_none)

theorem plain_ofItems {items : List Item} (h : ∀ i ∈ items, i.Plain inRecord) :
    Declared.Plain inRecord { items } :=
  ⟨h, List.forall_mem_nil _, List.forall_mem_nil _, forall_mem_none⟩

theorem plain_ofItem {d : ParsedDecl} {origin : Origin} (h : d.Plain) (named : d.Named inRecord) :
    (ofItem d origin).Plain inRecord :=
  plain_ofItems (List.forall_mem_singleton.mpr (.decl h named (by simp)))

theorem Plain.andThen (hd : d.Plain inRecord) (he : e.Plain inRecord) :
    (d.andThen e).Plain inRecord := by
  unfold Declared.andThen
  split
  · exact hd
  · exact ⟨List.forall_mem_append.mpr ⟨hd.items, he.items⟩,
      List.forall_mem_append.mpr ⟨hd.fields, he.fields⟩,
      List.forall_mem_append.mpr ⟨hd.methods, he.methods⟩, he.failure⟩

end Declared

namespace Common

/-- Whether what declarators have in common is written with identifiers. -/
structure Plain (c : Common) : Prop where
  base : ∀ t ∈ c.base, t.Plain
  template : ∀ ps ∈ c.template, TemplateParam.AllPlain ps

variable {c : Common} (plain : c.Plain)

include plain

/-- The name of a function begins with a word that has no colon. -/
theorem plain_functionHead {name : DeclName} (hn : name.Plain) {ops : List TypeOp}
    (hops : ∀ op ∈ ops, op.Plain) {n : String} {kind : FunctionKind} {returnTy : TypeExpr}
    (h : c.functionHead name ops = some (n, kind, returnTy)) :
    ':' ∉ Name.word n.toList ∧ returnTy.Plain := by
  have word {n : String} (hn : ':' ∉ n.toList) : ':' ∉ Name.word n.toList :=
    fun mem => hn (List.takeWhile_subset _ mem)
  unfold functionHead at h
  split at h
  · rename_i base has
    cases h
    exact ⟨word (Name.Plain.colon hn), plain_applyOps hops (plain.base _ has)⟩
  · split at h
    · cases h
      exact ⟨word (Name.Plain.colon hn), TypeExpr.plain_primitive⟩
    · cases h
  · cases h
    refine ⟨word ?_, TypeExpr.plain_primitive⟩
    simpa using Name.Plain.colon hn
  · rename_i base has
    cases h
    exact ⟨hn, plain_applyOps hops (plain.base _ has)⟩
  · cases h
  · -- A conversion has its type behind a blank.
    cases h
    refine ⟨?_, hn⟩
    simp [Name.word]

theorem plain_declareFunction {d : Declarator} (hd : d.Plain) {name : DeclName} (hn : name.Plain)
    {suffix : FunctionSuffix} (hs : suffix.Plain) (tail : Tail) :
    (c.declareFunction d name suffix tail).Plain c.member.isSome := by
  have ops : ∀ op ∈ d.ops.dropLast, op.Plain := fun op ho => hd.ops op (List.dropLast_subset _ ho)
  unfold declareFunction
  split
  · exact Declared.plain_ofFailure _ _
  · rename_i n kind returnTy head
    obtain ⟨word, returns⟩ := plain_functionHead plain hn ops head
    dsimp only
    have types : ∀ t ∈ (suffix.toSignature returnTy).types ++
        (c.template.getD []).flatMap (·.types), t.Plain :=
      List.forall_mem_append.mpr
        ⟨hs.toSignature returns, (TemplateParam.allPlain_getD plain.template).types⟩
    split
    · exact ⟨List.forall_mem_nil _, List.forall_mem_nil _, List.forall_mem_singleton.mpr types,
        forall_mem_none⟩
    · rename_i outside
      rw [Bool.not_eq_true] at outside
      rw [outside]
      exact Declared.plain_ofItem ⟨types, by simp [Decl.bases]⟩ ⟨rfl, word⟩

theorem plain_declareObject (fieldCount : Nat) {d : Declarator} (hd : d.Plain) {name : DeclName}
    (hn : name.Plain) (tail : Tail) :
    (c.declareObject fieldCount d name tail).Plain c.member.isSome := by
  unfold declareObject
  split
  · exact Declared.plain_of_empty rfl rfl rfl forall_mem_none
  · exact Declared.plain_ofFailure _ _
  · rename_i base n _ has
    have ty := plain_applyOps hd.ops (plain.base base has)
    dsimp only
    split
    · exact Declared.plain_ofItem ⟨by simpa [Decl.types] using ty, by simp [Decl.bases]⟩ hn
    · split
      · exact ⟨List.forall_mem_nil _, List.forall_mem_singleton.mpr ty, List.forall_mem_nil _,
          forall_mem_none⟩
      · exact Declared.plain_ofItem ⟨by simpa [Decl.types] using ty, by simp [Decl.bases]⟩ hn
  · exact Declared.plain_ofFailure _ _

theorem plain_declareOne (fieldCount : Nat) {d : Declarator} (hd : d.Plain) (tail : Tail) :
    (c.declareOne fieldCount d tail).Plain c.member.isSome := by
  unfold declareOne
  split
  · exact Declared.plain_default
  · split
    · exact Declared.plain_ofFailure _ _
    · rename_i name named
      have hn := hd.name name named
      split
      · rename_i suffix found
        refine plain_declareFunction plain hd hn (hd.suffix suffix ?_) tail
        simpa using (Option.ite_none_left_eq_some.mp found).2
      · exact plain_declareObject plain fieldCount hd hn tail

theorem plain_declareAll (fieldCount : Nat) {ds : List (Declarator × Tail)}
    (hds : ∀ d ∈ ds, d.1.Plain) : (c.declareAll fieldCount ds).Plain c.member.isSome := by
  induction ds generalizing fieldCount with
  | nil => exact Declared.plain_default
  | cons d ds ih =>
    exact (plain_declareOne plain fieldCount (hds d List.mem_cons_self) d.2).andThen
      (ih _ fun e he => hds e (List.mem_cons_of_mem _ he))

end Common

theorem plain_typedefAlias {specs : Specifiers} {defined : Defined}
    {ds : List (Declarator × Tail)} (hds : ∀ d ∈ ds, d.1.Plain) :
    ∀ n ∈ typedefAlias specs defined ds, Name.Plain n := by
  intro n hn
  unfold typedefAlias at hn
  split at hn
  · split at hn
    · exact (hds _ List.mem_cons_self).plainName? n (Option.eq_some_of_filter_eq_some hn)
    · cases hn
  · cases hn

section Declare

variable {specs : Specifiers} (plain : specs.Plain) (member : Option MemberContext)
  {template : Option (List (TemplateParam TypeExpr))}
  (params : ∀ ps ∈ template, TemplateParam.AllPlain ps) (origin : Origin)

include plain params

/-- What is declared by specifiers and declarators is written with what they are. -/
theorem plain_declare (scope : List String) {ds : List (Declarator × Tail)}
    (hds : ∀ d ∈ ds, d.1.Plain) :
    (declare specs member template origin scope ds).Plain member.isSome := by
  unfold declare
  extract_lets fieldCount
  split
  · have common : Common.Plain ⟨specs, specs.ty, member, template, origin, scope⟩ :=
      ⟨plain.ty, params⟩
    exact Common.plain_declareAll common _ hds
  · rename_i defined found
    -- A typedef may give a definition its name, and then it has no declarator of its own.
    extract_lets given defined' ds'
    have named : ∀ n ∈ given, Name.Plain n := plain_typedefAlias hds
    clear_value given
    have hd : defined'.Plain := by
      cases given with
      | some name => exact (plain.defined _ found).namedByTypedef (named name rfl)
      | none => exact plain.defined _ found
    have hds' : ∀ d ∈ ds', d.1.Plain := by
      unfold ds'
      split
      · exact fun d hd => hds d (List.mem_of_mem_drop hd)
      · exact hds
    have common (ty : TypeExpr) (hty : ty.Plain) : Common.Plain ⟨specs,
        some (TypeExpr.withQualifiers specs.qualifiers ty), member, template, origin, scope⟩ := by
      exact ⟨forall_mem_some.mpr (TypeExpr.plain_withQualifiers.mpr hty), params⟩
    cases own : defined'.name with
    | some name =>
      have ty : (TypeExpr.elaborated defined'.kind (.simple name)).Plain :=
        TypeExpr.plain_elaborated.mpr (.simple (hd.name name own))
      refine (Declared.plain_ofItems (List.forall_mem_singleton.mpr ?_)).andThen
        (Common.plain_declareAll (common _ ty) _ hds')
      exact .decl (hd.plain_toDecl forall_mem_none) (hd.named_toDecl _ _) hd.nested
    | none =>
      exact (Declared.plain_ofItems (by simp)).andThen
        (Common.plain_declareAll (common _ hd.type) _ hds')

theorem plain_declareAlone :
    (declareAlone specs member template origin).Plain member.isSome := by
  unfold declareAlone
  split
  · exact Declared.plain_default
  · rename_i defined found
    have hd : defined.Plain := by
      rcases Option.or_eq_some_iff.mp found with first | ⟨-, next⟩
      · exact plain.defined _ first
      · exact plain.forward _ next
    split
    · rename_i r m body none
      have record := hd.type
      rw [Defined.toType, body] at record
      exact ⟨hd.nested, List.forall_mem_singleton.mpr record, List.forall_mem_nil _, forall_mem_none⟩
    · exact Declared.plain_ofItems (List.forall_mem_singleton.mpr
        (.decl (hd.plain_toDecl params) (hd.named_toDecl _ _) hd.nested))

end Declare

end Grammar

end HeaderDecl
